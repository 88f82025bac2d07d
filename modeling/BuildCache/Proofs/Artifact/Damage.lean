import BuildCache.Proofs.Artifact.Memory
import BuildCache.Proofs.Checksum
import BuildCache.Proofs.Timestamp.Cut

/-! # Encoded artifacts of which one byte is damaged

The parts of a header vouch for each other, and the checksum vouches for a payload as far as it tells
payloads apart. Nothing vouches for the text of the creation time. -/
namespace BuildCache

namespace Bytes

/-- A byte string with another byte in one place. -/
def DiffersAt (i : Nat) (x y : Bytes) : Prop := ∃ b, (∃ a ≠ b, x[i]? = some a) ∧ y = x.set i b

variable {i : Nat} {x y z : Bytes}

theorem DiffersAt.length_eq (h : DiffersAt i x y) : x.length = y.length := by
  obtain ⟨b, -, rfl⟩ := h
  exact List.length_set.symm

theorem DiffersAt.ne (h : DiffersAt i x y) : x ≠ y := by
  obtain ⟨b, ⟨a, hne, ha⟩, rfl⟩ := h
  intro he
  have hi : i < x.length := (List.getElem?_eq_some_iff.mp ha).1
  rw [he, List.getElem?_set_self hi] at ha
  exact hne (Option.some.inj ha).symm

theorem DiffersAt.of_append (h : DiffersAt i (x ++ z) y) :
    (i < x.length ∧ ∃ x', y = x' ++ z ∧ DiffersAt i x x') ∨
      x.length ≤ i ∧ ∃ z', y = x ++ z' ∧ DiffersAt (i - x.length) z z' := by
  obtain ⟨b, ⟨a, hne, ha⟩, rfl⟩ := h
  rw [List.set_append]
  by_cases hi : i < x.length
  · rw [List.getElem?_append_left hi] at ha
    exact .inl ⟨hi, x.set i b, if_pos hi, b, ⟨a, hne, ha⟩, rfl⟩
  · rw [List.getElem?_append_right (Nat.not_lt.mp hi)] at ha
    exact .inr ⟨Nat.not_lt.mp hi, z.set (i - x.length) b, if_neg hi, b, ⟨a, hne, ha⟩, rfl⟩

theorem DiffersAt.of_cons {b : UInt8} (h : DiffersAt i (b :: x) y) :
    (i = 0 ∧ ∃ b' ≠ b, y = b' :: x) ∨ 0 < i ∧ ∃ x', y = b :: x' ∧ DiffersAt (i - 1) x x' := by
  obtain ⟨c, ⟨a, hne, ha⟩, rfl⟩ := h
  cases i with
  | zero =>
    cases ha
    exact .inl ⟨rfl, c, hne.symm, rfl⟩
  | succ i => exact .inr ⟨Nat.succ_pos i, x.set i c, rfl, c, ⟨a, hne, ha⟩, rfl⟩

end Bytes

/-- The second digit of a key, which no marker can take for the high byte of a small number. -/
theorem CacheKey.exists_ofText_cons (k : CacheKey) :
    ∃ a b rest, Bytes.ofText k.toHex = a :: b :: rest ∧ 48 ≤ b.toNat := by
  obtain ⟨⟨bytes, hlen⟩⟩ := k
  have hdigit : ∀ n < 16, 48 ≤ (UInt8.ofNat (Hex.digit n).toNat).toNat := by decide
  match bytes, hlen with
  | byte :: bytes, hlen =>
    rw [toHex, Digest.toHex, Hex.ofText_encode, List.flatMap_cons]
    exact ⟨_, _, _, rfl, hdigit _ (Nat.mod_lt _ (by decide))⟩

/-- Two numbers in a row are not read as two if some of their bytes, all less than any marker, are cut off
in front. -/
theorem Varint.not_decode_of_cut {m m' n n' : Nat} {b : UInt8} {extra r₄ r₅ r₆ : Bytes}
    (hcut : Varint.encode m ++ Varint.encode m' = b :: extra ++ r₄) (hsmall : ∀ c ∈ b :: extra, c < 251)
    (hsize : Varint.decode 8 r₄ = some (n, r₅)) : Varint.decode 16 r₅ ≠ some (n', r₆) := by
  have hmarker {marker : UInt8} (hm : 251 ≤ marker) (hmem : marker ∈ b :: extra) : False :=
    absurd (hsmall marker hmem) (UInt8.not_lt.mpr hm)
  intro hsum
  rcases Varint.encode_cases m with ⟨c, -, hc⟩ | ⟨marker, hm, number, hc⟩
  · simp only [hc, List.cons_append, List.nil_append, List.cons.injEq] at hcut
    obtain ⟨-, hcut⟩ := hcut
    cases extra with
    | nil =>
      obtain rfl : Varint.encode m' = r₄ := hcut
      obtain rfl := Varint.decode_encode_rest hsize
      cases hsum
    | cons d extra =>
      rcases Varint.encode_cases m' with ⟨e, -, he⟩ | ⟨marker, hm, number, he⟩
      · simp only [he, List.cons_append, List.cons.injEq] at hcut
        obtain ⟨-, rfl⟩ := List.append_eq_nil_iff.mp hcut.2.symm
        cases hsize
      · simp only [he, List.cons_append, List.cons.injEq] at hcut
        exact hmarker hm (hcut.1 ▸ List.mem_cons_of_mem _ List.mem_cons_self)
  · simp only [hc, List.cons_append, List.cons.injEq] at hcut
    exact hmarker hm (hcut.1 ▸ List.mem_cons_self)

theorem Timestamp.length_of_damaged {t t' : Timestamp} {marker : UInt8} {m m' n n' : Nat} {s : String}
    {r₄ r₅ r₆ : Bytes}
    (htext : Varint.decodeText (marker :: (Bytes.ofText t.toText ++ (Varint.encode m ++ Varint.encode m')))
    = some (s, r₄))
    (ht : ofText? s = some t') (hsize : Varint.decode 8 r₄ = some (n, r₅))
    (hsum : Varint.decode 16 r₅ = some (n', r₆)) :
    marker.toNat = (Bytes.ofText t.toText).length := by
  rcases Varint.decode_eq_some (Varint.decodeText_eq_some.mp htext) with ⟨-, hlen, heq⟩ | ⟨-, count, hcount, hfixed⟩
  · rcases List.append_eq_append_iff.mp heq with ⟨cut, htime, -⟩ | ⟨extra, hs, hcut⟩
    · -- fewer bytes of the moment
      by_contra hne
      have htake : Bytes.ofText s = (Bytes.ofText t.toText).take (Bytes.ofText s).length := by
        rw [htime, List.take_left]
      have hlt : (Bytes.ofText s).length < (Bytes.ofText t.toText).length := by
        have := congrArg List.length htime
        rw [List.length_append] at this
        omega
      rw [ofText?_of_take htake hlt] at ht
      cases ht
    · -- some bytes of the numbers behind it
      cases extra with
      | nil => rw [← hlen, hs, List.append_nil]
      | cons b extra =>
        refine absurd hsum (Varint.not_decode_of_cut hcut (fun c hc => ?_) hsize)
        exact Bytes.lt_of_mem_ofText (hs ▸ List.mem_append_right _ hc)
  · obtain ⟨a, b, rest, htime, hb⟩ := t.exists_ofText_cons
    have hsizes := Varint.length_encode_le m
    have hsums := Varint.length_encode_le m'
    have htimes := t.length_ofText_toText_le
    have hlong := (Varint.fixed_cons_cons hcount (htime ▸ hfixed)).2
    obtain ⟨number, hnumber, -, hx⟩ := Varint.fixed_eq_some.mp hfixed
    have hlen := congrArg List.length hx
    simp only [List.length_append] at hlen
    omega

namespace Artifact

namespace Header

variable {h h' : Header} {bytes : Bytes} {i : Nat}

/-- Where the text of the creation time begins. -/
def timeOffset : Nat := 71

theorem encode_eq (hv : h.version = formatVersion) : h.encode = h.magic ++ 1 :: 64 :: (Bytes.ofText h.key.toHex ++
    UInt8.ofNat (Bytes.ofText h.createdAt.toText).length :: (Bytes.ofText h.createdAt.toText ++
      (Varint.encode h.size ++ Varint.encode h.checksum.toNat))) := by
  have hkey : (Bytes.ofText h.key.toHex).length = 64 := h.key.digest.ofText_toHex_length
  have htime := h.createdAt.length_ofText_toText_le
  have hversion : Varint.encode h.version = [1] := by
    rw [hv]
    rfl
  rw [encode, Varint.encodeText_eq (by omega), Varint.encodeText_eq (by omega), hkey, hversion]
  simp only [List.append_assoc, List.cons_append, List.nil_append]
  rfl

/-- The version vouches for itself: a marker would take the length of the key for the low byte. -/
theorem version_of_damaged {marker : UInt8} {b : UInt8} {rest r : Bytes}
    (hv : Varint.decode 4 (marker :: 64 :: b :: rest) = some (formatVersion, r)) : marker = 1 := by
  rcases Varint.decode_eq_some hv with ⟨-, hm, -⟩ | ⟨-, count, hcount, hfixed⟩
  · exact UInt8.toNat_inj.mp hm.symm
  · exact absurd (Varint.fixed_cons_cons hcount hfixed).1 (by decide)

theorem keyLength_of_damaged {k : CacheKey} {marker : UInt8} {s : String} {rest r : Bytes}
    (hk : Varint.decodeText (marker :: (Bytes.ofText k.toHex ++ rest)) = some (s, r))
    (hs : (Bytes.ofText s).length = 64) : marker = 64 := by
  rw [Varint.decodeText_eq_some, hs] at hk
  rcases Varint.decode_eq_some hk with ⟨-, hm, -⟩ | ⟨-, count, hcount, hfixed⟩
  · exact UInt8.toNat_inj.mp hm.symm
  · obtain ⟨a, b, digits, hdigits, hb⟩ := k.exists_ofText_cons
    rw [hdigits] at hfixed
    have := (Varint.fixed_cons_cons hcount hfixed).2
    omega

theorem rest_of_key {key rest r : Bytes} {s : String} (hkey : key.length = 64)
    (hk : Varint.decodeText (64 :: (key ++ rest)) = some (s, r)) (hs : (Bytes.ofText s).length = 64) : r = rest := by
  rw [Varint.decodeText_eq_some] at hk
  have hr : Bytes.ofText s ++ r = key ++ rest := congrArg Prod.snd (Option.some.inj hk).symm
  exact (List.append_inj hr (hs.trans hkey.symm)).2

/-- A damaged header that is read with its magic and version has the creation time of the whole one, unless the
damage is in the text of it. -/
theorem createdAt_of_damaged (hm : h.magic.length = 4) (hv : h.version = formatVersion)
    (hdiff : Bytes.DiffersAt i h.encode bytes) (hd : decode? bytes = some h') (hm' : h'.magic = h.magic)
    (hv' : h'.version = formatVersion) : h'.createdAt = h.createdAt.regular ∨
      timeOffset ≤ i ∧ i < timeOffset + (Bytes.ofText h.createdAt.toText).length := by
  obtain ⟨r₁, r₂, r₃, r₄, r₅, r₆, keyText, timeText, sum, ⟨hlen, hmagic⟩, hversion, ⟨hkey, hkeyLen⟩,
    ⟨htime, hcreated⟩, hsize, hsum⟩ := exists_parts hd
  have hhex : (Bytes.ofText h.key.toHex).length = 64 := h.key.digest.ofText_toHex_length
  have htext := h.createdAt.length_ofText_toText_le
  rw [hv'] at hversion
  -- the time is read as it was written if that is what is left to read
  have hsame {rest : Bytes} (hr : r₃ = UInt8.ofNat (Bytes.ofText h.createdAt.toText).length ::
      (Bytes.ofText h.createdAt.toText ++ rest)) : h'.createdAt = h.createdAt.regular := by
    rw [hr, ← List.cons_append, ← Varint.encodeText_eq (by omega),
      Varint.decodeText_encodeText (Nat.lt_of_le_of_lt htext (by decide))] at htime
    cases htime
    rw [Timestamp.ofText?_toText] at hcreated
    exact (Option.some.inj hcreated).symm
  rw [encode_eq hv] at hdiff
  rcases hdiff.of_append with ⟨-, magic, hbytes, hdiff₁⟩ | ⟨h4, rest₁, hbytes, hdiff₁⟩
  · rw [hmagic] at hbytes
    obtain ⟨hsame, -⟩ := List.append_inj hbytes (hlen.trans (hm.symm.trans hdiff₁.length_eq))
    exact absurd (hm'.symm.trans hsame) hdiff₁.ne
  rw [hmagic, hm'] at hbytes
  obtain rfl := List.append_cancel_left hbytes
  rcases hdiff₁.of_cons with ⟨-, version, hne, rfl⟩ | ⟨h5, rest₂, rfl, hdiff₂⟩
  · obtain ⟨a, b, digits, hdigits, -⟩ := h.key.exists_ofText_cons
    rw [hdigits] at hversion
    exact absurd (version_of_damaged hversion) hne
  obtain rfl : rest₂ = r₂ := congrArg Prod.snd (Option.some.inj hversion)
  rcases hdiff₂.of_cons with ⟨-, length, hne, rfl⟩ | ⟨h6, rest₃, rfl, hdiff₃⟩
  · exact absurd (keyLength_of_damaged hkey hkeyLen) hne
  rcases hdiff₃.of_append with ⟨-, key, rfl, hdiff₄⟩ | ⟨h70, rest₄, rfl, hdiff₄⟩
  · exact .inl (hsame (rest_of_key (hdiff₄.length_eq.symm.trans hhex) hkey hkeyLen))
  obtain rfl := rest_of_key hhex hkey hkeyLen
  rcases hdiff₄.of_cons with ⟨-, length, hne, rfl⟩ | ⟨h71, rest₅, rfl, hdiff₅⟩
  · have hlength := Timestamp.length_of_damaged htime hcreated hsize hsum
    rw [← hlength, UInt8.ofNat_toNat] at hne
    exact absurd rfl hne
  rcases hdiff₅.of_append with ⟨hlt, -⟩ | ⟨-, rest₆, rfl, -⟩
  · refine .inr ⟨?_, ?_⟩ <;> simp only [timeOffset] <;> omega
  · exact .inl (hsame rfl)

end Header

/-- What can be read from an encoded artifact with another byte in one place: the artifact, the artifact with
another creation time if the damage is in the text of that, or the artifact with the damaged payload if that
has more than sixteen bytes and its checksum still fits. -/
inductive Survives (a : Artifact) (i : Nat) : Artifact → Prop
  | same : Survives a i a
  | time (t : Timestamp) (hfirst : 4 + Header.timeOffset ≤ i)
      (hlast : i < 4 + Header.timeOffset + (Bytes.ofText a.createdAt.toText).length) :
      Survives a i { a with createdAt := t }
  | payload (data : Bytes) (hfirst : a.encode.length - a.size ≤ i)
      (hdiff : Bytes.DiffersAt (i - (a.encode.length - a.size)) a.data data) (hlong : 16 < a.size)
      (hsum : BuildCache.checksum data = BuildCache.checksum a.data) : Survives a i { a with data := data }

/-- The length of the header vouches for itself: with another one the size of the payload is wrong. -/
theorem length_of_damaged {a : Artifact} (hsize : a.size < Bytes.range 8) {bytes payload : Bytes} {h : Header}
    (heq : bytes ++ payload = a.header.encode ++ a.data) (hd : Header.decode? bytes = some h)
    (hs : h.size = payload.length) : bytes.length = a.header.encode.length := by
  have hwhole := decode?_header hsize
  have hlen := congrArg List.length heq
  simp only [List.length_append] at hlen
  have hheader : h = a.reread.header := by
    rcases List.append_eq_append_iff.mp heq with ⟨cut, hcut, -⟩ | ⟨extra, hextra, -⟩
    · rw [hcut, Header.decode?_append hd] at hwhole
      exact Option.some.inj hwhole
    · rw [hextra, Header.decode?_append hwhole] at hd
      exact (Option.some.inj hd).symm
  have hsame : h.size = a.data.length := by
    rw [hheader]
    rfl
  omega

/-- Damage in one byte is found, but for the creation time and for payloads that the checksum confuses. -/
theorem survives_damage {a a' : Artifact} {i : Nat} {memory : Option Nat} {raw : Bytes}
    (hsize : a.size < Bytes.range 8)
    (hregular : a.createdAt.IsRegular) (hdiff : Bytes.DiffersAt i a.encode raw)
    (hd : decode memory a.key raw = .ok a') : a.Survives i a' := by
  obtain ⟨length, bytes, h, ⟨hlength, hraw, hbytes⟩, hheader, hmagic, hversion, hs, hsum, ha'⟩ :=
    parse_eq_ok (decode_eq_ok.mp hd)
  have hfour : (Bytes.ofNat 4 a.header.encode.length).length = 4 := Bytes.length_ofNat 4 _
  have hnumber : Bytes.toNat (Bytes.ofNat 4 a.header.encode.length) = a.header.encode.length :=
    Bytes.toNat_ofNat a.length_header_lt
  have hencode : a.encode.length - a.size = 4 + a.header.encode.length := by
    simp only [encode, List.length_append, hfour, size]
    omega
  have hdiff' := hdiff
  rw [encode, List.append_assoc] at hdiff'
  rcases hdiff'.of_append with ⟨-, length', heq, hdiff₁⟩ | ⟨h4, rest, heq, hdiff₁⟩
  · -- the length of the header
    obtain ⟨rfl, hrest⟩ := List.append_inj (hraw.symm.trans heq) (hlength.trans (hfour.symm.trans hdiff₁.length_eq))
    have hlen := length_of_damaged hsize hrest hheader hs
    refine absurd (Bytes.toNat_injective hdiff₁.length_eq ?_) hdiff₁.ne
    rw [hnumber, ← hbytes, hlen]
  obtain ⟨rfl, hrest⟩ := List.append_inj (hraw.symm.trans heq) (hlength.trans hfour.symm)
  rw [hnumber] at hbytes
  rcases hdiff₁.of_append with ⟨hlt, header, rfl, hdiff₂⟩ | ⟨hle, data, rfl, hdiff₂⟩
  · -- the header
    obtain ⟨rfl, hdata⟩ := List.append_inj hrest (hbytes.trans hdiff₂.length_eq)
    rcases Header.createdAt_of_damaged (h := a.header) rfl rfl hdiff₂ hheader hmagic hversion with
        ht | ⟨hfirst, hlast⟩
    · have htime : a.header.createdAt.regular = a.createdAt := Timestamp.regular_eq hregular
      rw [ha', ht, hdata, htime]
      exact .same
    · rw [ha', hdata]
      have htime : a.header.createdAt = a.createdAt := rfl
      rw [htime] at hlast
      exact .time h.createdAt (by omega) (by omega)
  · -- the payload
    obtain ⟨rfl, hdata⟩ := List.append_inj hrest hbytes
    obtain rfl := Option.some.inj (hheader.symm.trans (decode?_header hsize))
    have hsum' : BuildCache.checksum data = BuildCache.checksum a.data := hdata ▸ hsum.symm
    have hlong : 16 < a.size := by
      by_contra hle
      exact hdiff₂.ne (checksum_injective hdiff₂.length_eq (Nat.not_lt.mp hle) hsum'.symm)
    have htime : a.reread.header.createdAt = a.createdAt := Timestamp.regular_eq hregular
    rw [ha', hdata, htime]
    rw [hfour, Nat.sub_sub, ← hencode] at hdiff₂
    exact .payload data (by omega) hdiff₂ hlong hsum'

/-- An artifact of new year's midnight or of a second later. -/
def midnight (second : Fin 2) (data : Bytes) : Artifact :=
  ⟨leapling.key, ⟨Timestamp.newYear.date, second, 0, by omega, Timestamp.newYear.nano_lt⟩, data⟩

private theorem decode_midnight (memory : Option Nat) (second first : Fin 2) {data : Bytes} (other : Bytes)
    (h : data.length < Bytes.range 8) :
    decode memory (midnight first other).key (midnight second data).encode = .ok (midnight second data) := by
  have hread := decode_encode_self (a := midnight second data) h memory
  rwa [reread_eq_iff.mpr (.inl (show 0 < 1000000000 by decide))] at hread

private theorem differs_pivot :
    Bytes.DiffersAt 129 (midnight 0 (pivot 0)).encode (midnight 0 (pivot 0x80)).encode :=
  ⟨0x80, ⟨0, by decide, by decide +kernel⟩, by decide +kernel⟩

theorem survives_damage_pivot : (midnight 0 (pivot 0)).size < Bytes.range 8 ∧
    (midnight 0 (pivot 0)).createdAt.IsRegular ∧
    Bytes.DiffersAt 129 (midnight 0 (pivot 0)).encode (midnight 0 (pivot 0x80)).encode ∧
    decode (some 0) (midnight 0 (pivot 0)).key (midnight 0 (pivot 0x80)).encode = .ok (midnight 0 (pivot 0x80)) ∧
    (midnight 0 (pivot 0)).Survives 129 (midnight 0 (pivot 0x80)) := by
  have hsize : (midnight 0 (pivot 0)).size < Bytes.range 8 := by decide
  have hregular : (midnight 0 (pivot 0)).createdAt.IsRegular := by decide
  have hd := decode_midnight (some 0) 0 0 (pivot 0) (by decide : (pivot 0x80).length < Bytes.range 8)
  exact ⟨hsize, hregular, differs_pivot, hd, survives_damage hsize hregular differs_pivot hd⟩

/-- One damaged byte can go unnoticed: a digit of the creation time, and a byte of a payload. -/
theorem damage_unnoticed :
    (Bytes.DiffersAt 93 (midnight 0 []).encode (midnight 1 []).encode ∧
      decode (some 0) (midnight 0 []).key (midnight 1 []).encode = .ok (midnight 1 []) ∧
        midnight 1 [] ≠ midnight 0 []) ∧
    (Bytes.DiffersAt 129 (midnight 0 (pivot 0)).encode (midnight 0 (pivot 0x80)).encode ∧
      decode (some 0) (midnight 0 (pivot 0)).key (midnight 0 (pivot 0x80)).encode = .ok (midnight 0 (pivot 0x80)) ∧
      midnight 0 (pivot 0x80) ≠ midnight 0 (pivot 0)) :=
  ⟨⟨⟨0x31, ⟨0x30, by decide, by decide +kernel⟩, by decide +kernel⟩, decode_midnight (some 0) 1 0 [] (by decide),
    by decide⟩,
    differs_pivot, decode_midnight (some 0) 0 0 (pivot 0) (by decide), by decide⟩

end Artifact
end BuildCache
