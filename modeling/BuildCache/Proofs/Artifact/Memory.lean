import BuildCache.Proofs.Artifact

/-! # Reading artifacts with little memory

A header that is read whole announces no text longer than itself, and a part of it announces nothing else. So
what can be read at all is read with any memory, and only a broken header brings the reading down. -/
namespace BuildCache.Artifact

variable {a : Artifact} {k : CacheKey} {memory : Option Nat} {n : Nat} {length bytes payload raw : Bytes}

namespace Header

theorem mem_announced : n ∈ announced bytes ↔ ∃ magic r₁ version r₂, bytes.split? 4 = some (magic, r₁) ∧
    Varint.decode 4 r₁ = some (version, r₂) ∧ ((∃ rest, Varint.decode 8 r₂ = some (n, rest)) ∨
      ∃ keyText r₃ key, Varint.decodeText r₂ = some (keyText, r₃) ∧ (CacheKey.parse keyText).toOption = some key ∧
        ∃ rest, Varint.decode 8 r₃ = some (n, rest)) := by
  simp only [announced, List.mem_filterMap, List.mem_cons, List.not_mem_nil, or_false, bind, pure,
    Option.bind_eq_some_iff, Option.some.injEq, exists_eq_or_imp, exists_eq_left, Prod.exists]
  constructor
  · rintro (⟨_, ⟨magic, r₁, hmagic, version, r₂, hversion, rfl⟩, m, rest, hn, rfl⟩ |
      ⟨_, ⟨_, ⟨magic, r₁, hmagic, version, r₂, hversion, rfl⟩, keyText, r₃, hkey, key, hparse, rfl⟩,
        m, rest, hn, rfl⟩)
    · exact ⟨magic, r₁, version, r₂, hmagic, hversion, .inl ⟨rest, hn⟩⟩
    · exact ⟨magic, r₁, version, r₂, hmagic, hversion, .inr ⟨keyText, r₃, key, hkey, hparse, rest, hn⟩⟩
  · rintro ⟨magic, r₁, version, r₂, hmagic, hversion, ⟨rest, hn⟩ | ⟨keyText, r₃, key, hkey, hparse, rest, hn⟩⟩
    · exact .inl ⟨r₂, ⟨magic, r₁, hmagic, version, r₂, hversion, rfl⟩, n, rest, hn, rfl⟩
    · exact .inr ⟨r₃, ⟨r₂, ⟨magic, r₁, hmagic, version, r₂, hversion, rfl⟩, keyText, r₃, hkey, key, hparse, rfl⟩,
        n, rest, hn, rfl⟩

theorem mem_announced_append (h : n ∈ announced bytes) (rest : Bytes) : n ∈ announced (bytes ++ rest) := by
  obtain ⟨magic, r₁, version, r₂, hmagic, hversion, htexts⟩ := mem_announced.mp h
  obtain ⟨hlen, hbytes⟩ := Bytes.split?_eq_some.mp hmagic
  refine mem_announced.mpr ⟨magic, r₁ ++ rest, version, r₂ ++ rest,
    Bytes.split?_eq_some.mpr ⟨hlen, by rw [hbytes, List.append_assoc]⟩, Varint.decode_append hversion rest, ?_⟩
  rcases htexts with ⟨left, hn⟩ | ⟨keyText, r₃, key, hkey, hparse, left, hn⟩
  · exact .inl ⟨left ++ rest, Varint.decode_append hn rest⟩
  · exact .inr ⟨keyText, r₃ ++ rest, key, Varint.decodeText_append hkey rest, hparse, left ++ rest,
      Varint.decode_append hn rest⟩

theorem le_of_mem_announced {h : Header} (hd : decode? bytes = some h) (hn : n ∈ announced bytes) :
    n ≤ bytes.length := by
  obtain ⟨r₁, r₂, r₃, r₄, -, -, keyText, timeText, -, ⟨hmagic, rfl⟩, hversion, ⟨hkey, -⟩, ⟨htime, -⟩, -⟩ :=
    exists_parts hd
  obtain ⟨_, _, _, _, hmagic', hversion', htexts⟩ := mem_announced.mp hn
  rw [Bytes.split?_append hmagic] at hmagic'
  cases hmagic'
  cases hversion.symm.trans hversion'
  have hkeyLen := Varint.decode_length_lt (Varint.decodeText_eq_some.mp hkey)
  have htimeLen := Varint.decode_length_lt (Varint.decodeText_eq_some.mp htime)
  have hversionLen := Varint.decode_length_lt hversion
  simp only [List.length_append] at hkeyLen htimeLen ⊢
  rcases htexts with ⟨_, hn⟩ | ⟨_, _, _, hkey', -, _, hn⟩
  · cases (Varint.decodeText_eq_some.mp hkey).symm.trans hn
    omega
  · cases hkey.symm.trans hkey'
    cases (Varint.decodeText_eq_some.mp htime).symm.trans hn
    omega

end Header

theorem announced_frame (hlength : length.length = 4) (hbytes : bytes.length = length.toNat) :
    announced (length ++ (bytes ++ payload)) = Header.announced bytes := by
  simp only [announced, Bytes.split?_append hlength, bind, Option.bind_some, Bytes.split?_append hbytes]

/-- A reader that asks for no memory ahead never breaks down. -/
theorem decode_none (k : CacheKey) (raw : Bytes) : decode none k raw = .ofExcept (parse k raw) := rfl

/-- Lengths that the input itself has are no trouble. -/
theorem decode_eq_parse (h : ∀ n ∈ announced raw, n ≤ raw.length) (memory : Option Nat) (k : CacheKey) :
    decode memory k raw = .ofExcept (parse k raw) := by
  have hnone : shortage? memory raw = none := by
    cases memory with
    | none => rfl
    | some most =>
      refine List.find?_eq_none.mpr fun n hn => ?_
      have := h n hn
      simp only [decide_eq_true_eq]
      omega
  simp only [decode, hnone]

/-- A frame whose header is one of an artifact, whole or cut, or one with more bytes behind it. -/
theorem le_of_mem_frame (hlength : length.length = 4) (hbytes : bytes.length = length.toNat)
    (hsize : a.size < Bytes.range 8) (hheader : a.header.encode <+: bytes ∨ bytes <+: a.header.encode)
    (henough : a.header.encode.length ≤ (length ++ (bytes ++ payload)).length)
    (hn : n ∈ announced (length ++ (bytes ++ payload))) : n ≤ (length ++ (bytes ++ payload)).length := by
  rw [announced_frame hlength hbytes] at hn
  rcases hheader with ⟨rest, rfl⟩ | ⟨rest, hrest⟩
  · have hle := Header.le_of_mem_announced (Header.decode?_append (decode?_header hsize) rest) hn
    simp only [List.length_append] at hle ⊢
    omega
  · have hwhole := Header.mem_announced_append hn rest
    rw [hrest] at hwhole
    exact Nat.le_trans (Header.le_of_mem_announced (decode?_header hsize) hwhole) henough

theorem le_of_mem_encode (hsize : a.size < Bytes.range 8) (hn : n ∈ announced a.encode) : n ≤ a.encode.length := by
  have hnumber : a.header.encode.length = (Bytes.ofNat 4 a.header.encode.length).toNat :=
    (Bytes.toNat_ofNat a.length_header_lt).symm
  rw [encode, List.append_assoc] at hn ⊢
  refine le_of_mem_frame (Bytes.length_ofNat 4 _) hnumber hsize (.inl (List.prefix_refl _)) ?_ hn
  simp only [List.length_append]
  omega

/-- What has no header that could be read but for a lack of memory is broken anyway. -/
theorem parse_of_shortage (h : shortage? memory raw = some n) :
    parse k raw = .error (.invalidHeader "it cannot be read") := by
  obtain ⟨most, -, h⟩ := Option.bind_eq_some_iff.mp h
  have hn := List.mem_of_find?_eq_some h
  have hshort := List.find?_some h
  simp only [decide_eq_true_eq] at hshort
  simp only [announced, bind] at hn
  split at hn
  · next bytes payload hframe =>
    obtain ⟨⟨length, rest⟩, hlength, hrest⟩ := Option.bind_eq_some_iff.mp hframe
    have hlen := congrArg List.length (Bytes.split?_eq_some.mp hlength).2
    have hlen' := congrArg List.length (Bytes.split?_eq_some.mp hrest).2
    simp only [List.length_append] at hlen hlen'
    have hnone : Header.decode? bytes = none := by
      rw [Option.eq_none_iff_forall_ne_some]
      intro header hheader
      have := Header.le_of_mem_announced hheader hn
      omega
    simp only [parse, hlength, hrest, hnone]
  · cases hn

/-- A lack of memory hides nothing but broken headers. -/
theorem decode_eq (memory : Option Nat) (k : CacheKey) (raw : Bytes) : decode memory k raw = .ofExcept (parse k raw) ∨
    ∃ c, decode memory k raw = .crashed c ∧ parse k raw = .error (.invalidHeader "it cannot be read") := by
  cases h : shortage? memory raw with
  | none =>
    left
    simp only [decode, h]
  | some n =>
    right
    simp only [decode, h]
    exact ⟨_, rfl, parse_of_shortage h⟩

theorem decode_eq_ok : decode memory k raw = .ok a ↔ parse k raw = .ok a := by
  rcases decode_eq memory k raw with h | ⟨c, h, hparse⟩
  · rw [h, Result.ofExcept_eq_ok]
  · simp [h, hparse]

theorem parse_of_decode_error {kind : Corruption} (h : decode memory k raw = .error kind) :
    parse k raw = .error kind := by
  rcases decode_eq memory k raw with he | ⟨c, he, -⟩
  · rwa [he, Result.ofExcept_eq_error] at h
  · rw [he] at h
    cases h

theorem decode_encode_self (h : a.size < Bytes.range 8) (memory : Option Nat) :
    decode memory a.key a.encode = .ok a.reread :=
  decode_eq_ok.mpr ((parse_encode h a.key).trans (if_pos rfl))

/-- An encoded artifact is read back under its own key, and under any other key it is refused with the one
that it has. It is the same as before unless it is from a leap second within a minute. -/
theorem decode_encode_any {a : Artifact} (h : a.size < Bytes.range 8) (memory : Option Nat) (k : CacheKey) :
    decode memory k a.encode = (if k = a.key then .ok a.reread else .error (.keyMismatch a.key)) ∧
      (a.reread = a ↔ a.createdAt.IsRegular) := by
  refine ⟨?_, reread_eq_iff⟩
  rw [decode_eq_parse (fun _ => le_of_mem_encode h), parse_encode h]
  split <;> rfl

/-- An artifact of the last leap second of the first year, with six decimals. -/
def leapling : Artifact where
  key := ⟨⟨List.replicate 32 7, rfl⟩⟩
  createdAt := ⟨⟨-262143, 12, 31, by decide⟩, 86399, 1123456000, by decide, by decide⟩
  data := [0, 1, 255]

theorem decode_encode_any_leapling : leapling.size < Bytes.range 8 ∧
    decode (some 0) leapling.key leapling.encode = .ok leapling ∧
    decode (some 0) ⟨⟨List.replicate 32 8, rfl⟩⟩ leapling.encode = .error (.keyMismatch leapling.key) := by
  have hsize : leapling.size < Bytes.range 8 := by decide
  obtain ⟨hread, hsame⟩ := decode_encode_any hsize (some 0) leapling.key
  obtain ⟨hrefused, -⟩ := decode_encode_any hsize (some 0) ⟨⟨List.replicate 32 8, rfl⟩⟩
  have hother : (⟨⟨List.replicate 32 8, rfl⟩⟩ : CacheKey) ≠ leapling.key := by decide
  rw [if_pos rfl, hsame.mpr (by decide)] at hread
  rw [if_neg hother] at hrefused
  exact ⟨hsize, hread, hrefused⟩

/-- An artifact of a leap second within a minute. -/
def offbeat : Artifact where
  key := ⟨⟨List.replicate 32 7, rfl⟩⟩
  createdAt := ⟨⟨2015, 7, 1, by decide⟩, 86164, 1333333333, by decide, by decide⟩
  data := [0]

theorem leap_second_lost : decode (some 0) offbeat.key offbeat.encode = .ok offbeat.reread ∧
    offbeat.reread.createdAt.second = 86165 ∧ offbeat.reread.createdAt.nano = 333333333 ∧
    offbeat.reread ≠ offbeat := by
  have hsize : offbeat.size < Bytes.range 8 := by decide
  exact ⟨decode_encode_self hsize (some 0), by decide, by decide, by decide⟩

end BuildCache.Artifact
