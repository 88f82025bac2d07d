import BuildCache.Proofs.Artifact.Damage

/-! # Torn and re-framed artifacts

The header says how long the payload is, and no part of a header but the whole of it is read. So every cut,
every extension and every other header length is refused, each with an error of its own. -/
namespace BuildCache

theorem Bytes.split?_eq_none {count : Nat} {bytes : Bytes} (h : bytes.length < count) :
    split? count bytes = none :=
  if_neg (Nat.not_le_of_lt h)

namespace Artifact

variable {a : Artifact} {k : CacheKey} {memory : Option Nat} {length bytes payload rest : Bytes}

theorem Header.decode?_cut (hsize : a.size < Bytes.range 8) (heq : a.header.encode = bytes ++ rest)
    (hrest : rest ≠ []) : decode? bytes = none := by
  have hwhole := split?_header hsize []
  rw [decode?_eq, Option.map_eq_none_iff]
  by_contra hsome
  obtain ⟨⟨h, left⟩, hread⟩ := Option.ne_none_iff_exists'.mp hsome
  -- what is left of a part would be left of the whole, with more behind it
  rw [List.append_nil, heq, split?_append hread] at hwhole
  have hleft : left ++ rest = [] := congrArg Prod.snd (Option.some.inj hwhole)
  exact hrest (List.append_eq_nil_iff.mp hleft).2

theorem decode_short (hlength : length.length = 4) (hshort : rest.length < length.toNat) :
    decode memory k (length ++ rest) = .error .truncated := by
  have hnone : ∀ n ∈ announced (length ++ rest), n ≤ (length ++ rest).length := by
    intro n hn
    simp only [announced, Bytes.split?_append hlength, bind, Option.bind_some, Bytes.split?_eq_none hshort] at hn
    cases hn
  rw [decode_eq_parse hnone]
  simp only [parse, Bytes.split?_append hlength, Bytes.split?_eq_none hshort, Result.ofExcept]

/-- A part of the header of an artifact before the rest of it and the payload. -/
theorem decode_cut (hsize : a.size < Bytes.range 8) (hlength : length.length = 4)
    (hbytes : bytes.length = length.toNat) (hcut : a.header.encode = bytes ++ rest) (hrest : rest ≠ []) :
    decode memory k (length ++ (bytes ++ (rest ++ payload))) = .error (.invalidHeader "it cannot be read") := by
  have hread := Header.decode?_cut hsize hcut hrest
  rw [decode_eq_parse fun _ => le_of_mem_frame hlength hbytes hsize (.inr ⟨rest, hcut.symm⟩) ?_]
  · simp only [parse, Bytes.split?_append hlength, Bytes.split?_append hbytes, hread, Result.ofExcept]
  · simp only [hcut, List.length_append]
    omega

theorem decode_misfit (hsize : a.size < Bytes.range 8) (hlength : length.length = 4)
    (hbytes : bytes.length = length.toNat) (hheader : a.header.encode <+: bytes) (hmisfit : a.size ≠ payload.length) :
    decode memory a.key (length ++ (bytes ++ payload)) = .error (.sizeMismatch a.size payload.length) := by
  have hread : Header.decode? bytes = some a.reread.header := by
    obtain ⟨rest, rfl⟩ := hheader
    exact Header.decode?_append (decode?_header hsize) rest
  have hlen := hheader.length_le
  rw [decode_eq_parse fun _ => le_of_mem_frame hlength hbytes hsize (.inl hheader)
    (by simp only [List.length_append]; omega)]
  simp only [parse, Bytes.split?_append hlength, Bytes.split?_append hbytes, hread]
  simp only [reread, header, ne_eq, not_true_eq_false, if_false]
  exact congrArg Result.ofExcept (if_pos hmisfit)

theorem encode_eq_append (a : Artifact) :
    a.encode = Bytes.ofNat 4 a.header.encode.length ++ (a.header.encode ++ a.data) :=
  List.append_assoc _ _ _

theorem length_encode (a : Artifact) : a.encode.length = 4 + a.header.encode.length + a.size := by
  rw [encode, List.length_append, List.length_append, Bytes.length_ofNat, size]

/-- An artifact that ends before its header does, or in the middle of its payload. -/
theorem decode_take (hsize : a.size < Bytes.range 8) {n : Nat} (hn : n < a.encode.length) :
    decode memory a.key (a.encode.take n) = .error
      (if n < 4 + a.header.encode.length then .truncated
        else .sizeMismatch a.size (n - (4 + a.header.encode.length))) := by
  have hfour : (Bytes.ofNat 4 a.header.encode.length).length = 4 := Bytes.length_ofNat 4 _
  have hcount : (Bytes.ofNat 4 a.header.encode.length).toNat = a.header.encode.length :=
    Bytes.toNat_ofNat a.length_header_lt
  rw [length_encode] at hn
  rw [encode_eq_append, List.take_append, hfour]
  by_cases hframe : n < 4
  · -- not even the length is whole
    have hnone : Bytes.split? 4 ((Bytes.ofNat 4 a.header.encode.length).take n) = none :=
      Bytes.split?_eq_none (by rw [List.length_take]; omega)
    rw [Nat.sub_eq_zero_of_le (Nat.le_of_lt hframe), List.take_zero, List.append_nil,
      if_pos (Nat.lt_of_lt_of_le hframe (Nat.le_add_right _ _))]
    have hnot : ∀ m ∈ announced ((Bytes.ofNat 4 a.header.encode.length).take n),
        m ≤ ((Bytes.ofNat 4 a.header.encode.length).take n).length := by
      intro m hm
      simp only [announced, hnone, bind, Option.bind_none] at hm
      cases hm
    rw [decode_eq_parse hnot]
    simp only [parse, hnone, Result.ofExcept]
  · rw [List.take_of_length_le (by omega)]
    split
    · exact decode_short hfour (by rw [List.length_take, hcount]; omega)
    · rw [List.take_append, List.take_of_length_le (by omega)]
      have hleft : (a.data.take (n - 4 - a.header.encode.length)).length = n - (4 + a.header.encode.length) := by
        rw [List.length_take]
        simp only [size] at hn
        omega
      rw [decode_misfit hsize hfour hcount.symm (List.prefix_refl _) (by omega), hleft]

theorem decode_extended (hsize : a.size < Bytes.range 8) {extra : Bytes} (hextra : extra ≠ []) :
    decode memory a.key (a.encode ++ extra) = .error (.sizeMismatch a.size (a.size + extra.length)) := by
  have hpos := List.length_pos_iff.mpr hextra
  have hcount : (Bytes.ofNat 4 a.header.encode.length).toNat = a.header.encode.length :=
    Bytes.toNat_ofNat a.length_header_lt
  rw [encode_eq_append, List.append_assoc, List.append_assoc,
    decode_misfit hsize (Bytes.length_ofNat 4 _) hcount.symm (List.prefix_refl _)]
  · rw [List.length_append, size]
  · rw [List.length_append, size]
    omega

/-- Another length before the header and the payload: a smaller one cuts the header, and a larger one takes
bytes of the payload or more than there are. -/
theorem decode_reframed (hsize : a.size < Bytes.range 8) (hfour : length.length = 4)
    (hne : length.toNat ≠ a.header.encode.length) :
    decode memory a.key (length ++ (a.header.encode ++ a.data)) = .error
      (if length.toNat < a.header.encode.length then .invalidHeader "it cannot be read"
        else if a.encode.length < 4 + length.toNat then .truncated
        else .sizeMismatch a.size (a.encode.length - (4 + length.toNat))) := by
  rw [length_encode]
  split
  · next hsmall =>
    have hcut := List.take_append_drop length.toNat a.header.encode
    have hbytes : (a.header.encode.take length.toNat).length = length.toNat := by
      rw [List.length_take]
      omega
    have hrest : a.header.encode.drop length.toNat ≠ [] := fun he =>
      Nat.not_le_of_lt hsmall (List.drop_eq_nil_iff.mp he)
    rw [← hcut, List.append_assoc]
    exact decode_cut hsize hfour hbytes hcut.symm hrest
  · next hlarge =>
    split
    · refine decode_short hfour ?_
      rw [List.length_append, ← size]
      omega
    · have hcut := List.take_append_drop (length.toNat - a.header.encode.length) a.data
      have hbytes : (a.header.encode ++ a.data.take (length.toNat - a.header.encode.length)).length
          = length.toNat := by
        rw [List.length_append, List.length_take, ← size]
        omega
      have hleft : (a.data.drop (length.toNat - a.header.encode.length)).length
          = 4 + a.header.encode.length + a.size - (4 + length.toNat) := by
        rw [List.length_drop, size]
        omega
      rw [← hcut, ← List.append_assoc a.header.encode,
        decode_misfit hsize hfour hbytes (List.prefix_append _ _) (by omega), hleft]

/-- A torn or re-framed artifact is refused, and the error tells how: one cut before the end of its header is
truncated, one cut in its payload or extended misses its size, and before a header length other than its own
it has no header, fewer bytes than the length says, or not the size it says. -/
theorem rejects_reframed (a : Artifact) (hsize : a.size < Bytes.range 8) (memory : Option Nat) :
    (∀ n < a.encode.length, decode memory a.key (a.encode.take n) = .error
      (if n < 4 + a.header.encode.length then .truncated
        else .sizeMismatch a.size (n - (4 + a.header.encode.length)))) ∧
    (∀ extra : Bytes, extra ≠ [] →
      decode memory a.key (a.encode ++ extra) = .error (.sizeMismatch a.size (a.size + extra.length))) ∧
    ∀ length : Bytes, length.length = 4 → length ≠ a.encode.take 4 →
      decode memory a.key (length ++ a.encode.drop 4) = .error
        (if length.toNat < a.header.encode.length then .invalidHeader "it cannot be read"
          else if a.encode.length < 4 + length.toNat then .truncated
          else .sizeMismatch a.size (a.encode.length - (4 + length.toNat))) := by
  refine ⟨fun n hn => decode_take hsize hn, fun extra hextra => decode_extended hsize hextra,
    fun length hfour hother => ?_⟩
  have hfront : (Bytes.ofNat 4 a.header.encode.length).length = 4 := Bytes.length_ofNat 4 _
  have htake : a.encode.take 4 = Bytes.ofNat 4 a.header.encode.length := by
    rw [encode_eq_append, List.take_left' hfront]
  have hdrop : a.encode.drop 4 = a.header.encode ++ a.data := by
    rw [encode_eq_append, List.drop_left' hfront]
  rw [htake] at hother
  rw [hdrop]
  refine decode_reframed hsize hfour fun he => hother ?_
  have hcount := Bytes.toNat_ofNat a.length_header_lt
  exact Bytes.toNat_injective (hfour.trans hfront.symm) (he.trans hcount.symm)

/-- A last leap second that is cut in its length, loses a byte of its payload, gains one, and has the lengths
zero, two more than its own, and the greatest there is. -/
theorem rejects_reframed_leapling : leapling.size < Bytes.range 8 ∧
    decode (some 0) leapling.key (leapling.encode.take 3) = .error .truncated ∧
    decode (some 0) leapling.key (leapling.encode.take 125) = .error (.sizeMismatch 3 2) ∧
    decode (some 0) leapling.key (leapling.encode ++ [0]) = .error (.sizeMismatch 3 4) ∧
    decode (some 0) leapling.key ([0, 0, 0, 0] ++ leapling.encode.drop 4) = .error
      (.invalidHeader "it cannot be read") ∧
    decode (some 0) leapling.key ([121, 0, 0, 0] ++ leapling.encode.drop 4) = .error (.sizeMismatch 3 1) ∧
    decode (some 0) leapling.key ([255, 255, 255, 255] ++ leapling.encode.drop 4) = .error .truncated := by
  have hsize : leapling.size < Bytes.range 8 := by decide
  have hheader : leapling.header.encode.length = 119 := by decide +kernel
  have hlength : leapling.encode.length = 126 := by rw [length_encode, hheader]; rfl
  have htake : leapling.encode.take 4 = [119, 0, 0, 0] := by decide +kernel
  obtain ⟨hcuts, hextended, hlengths⟩ := rejects_reframed leapling hsize (some 0)
  simp only [hheader, hlength, htake] at hcuts hlengths
  refine ⟨hsize, ?_, ?_, hextended [0] (by decide), ?_, ?_, ?_⟩
  · exact hcuts 3 (by decide)
  · exact hcuts 125 (by decide)
  · exact hlengths [0, 0, 0, 0] rfl (by decide)
  · exact hlengths [121, 0, 0, 0] rfl (by decide)
  · exact hlengths [255, 255, 255, 255] rfl (by decide)

end Artifact
end BuildCache
