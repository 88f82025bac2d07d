import Mathlib.Data.List.Basic
import BuildCache.Proofs.Hex
import BuildCache.Proofs.Timestamp

/-! # The text of a moment cut short is not read

A moment ends with its time zone, and nothing before its end can be taken for one: signs stand in the date
only. -/
namespace BuildCache.Timestamp

open Text

variable {cs rest : List Char}

theorem dropBlank_suffix (cs : List Char) : dropBlank cs <:+ cs := List.dropWhile_suffix _

theorem digits_suffix {limit : Nat} {ds : List Char} (h : digits limit cs = some (ds, rest)) : rest <:+ cs := by
  unfold digits at h
  split at h
  · cases h
  · cases h
    exact List.drop_suffix _ _

theorem shortNumber_suffix {low high n : Nat} (h : shortNumber low high cs = some (n, rest)) : rest <:+ cs := by
  simp only [shortNumber, bind, Option.bind_eq_some_iff] at h
  obtain ⟨⟨ds, left⟩, hd, h⟩ := h
  split at h
  · cases h
    exact (digits_suffix hd).trans (dropBlank_suffix cs)
  · cases h

theorem separator_suffix {c : Char} (h : separator c cs = some rest) : rest <:+ cs := by
  have hdrop := dropBlank_suffix cs
  unfold separator at h
  split at h
  · next heq =>
    split at h
    · cases h
      exact (List.suffix_cons _ _).trans (heq ▸ hdrop)
    · cases h
  · cases h

theorem yearNumber_suffix {year : Int} (h : yearNumber cs = some (year, rest)) : rest <:+ cs := by
  have hdrop := dropBlank_suffix cs
  unfold yearNumber at h
  split at h <;> obtain ⟨⟨ds, left⟩, hd, he⟩ := Option.map_eq_some_iff.mp h <;> cases he
  · next heq => exact (digits_suffix hd).trans ((List.suffix_cons _ _).trans (heq ▸ hdrop))
  · next heq => exact (digits_suffix hd).trans ((List.suffix_cons _ _).trans (heq ▸ hdrop))
  · exact (digits_suffix hd).trans hdrop

theorem fraction_suffix {nano : Nat} (h : fraction cs = some (nano, rest)) : rest <:+ cs := by
  unfold fraction at h
  split at h
  · simp only [bind, Option.bind_eq_some_iff, pure, Option.some.injEq, Prod.mk.injEq] at h
    obtain ⟨⟨ds, left⟩, hd, -, rfl⟩ := h
    exact ((List.dropWhile_suffix _).trans (digits_suffix hd)).trans (List.suffix_cons _ _)
  · cases h
    exact List.suffix_rfl

theorem dateParts_suffix {date : Int × Nat × Nat} (h : dateParts cs = some (date, rest)) : rest <:+ cs := by
  simp only [dateParts, bind, Option.bind_eq_some_iff, pure, Option.some.injEq, Prod.mk.injEq] at h
  obtain ⟨⟨year, a⟩, hyear, b, hb, ⟨month, d⟩, hmonth, e, he, ⟨day, f⟩, hday, -, rfl⟩ := h
  exact (((((shortNumber_suffix hday).trans (separator_suffix he)).trans (shortNumber_suffix hmonth)).trans
    (separator_suffix hb)).trans (yearNumber_suffix hyear))

theorem timeParts_suffix {time : Nat × Nat × Nat × Nat} (h : timeParts cs = some (time, rest)) : rest <:+ cs := by
  simp only [timeParts, bind, Option.bind_eq_some_iff, pure, Option.some.injEq, Prod.mk.injEq] at h
  obtain ⟨⟨hour, a⟩, hhour, b, hb, ⟨minute, d⟩, hminute, e, he, ⟨second, f⟩, hsecond, ⟨nano, g⟩, hnano, -, rfl⟩ := h
  exact (((((fraction_suffix hnano).trans (shortNumber_suffix hsecond)).trans (separator_suffix he)).trans
    (shortNumber_suffix hminute)).trans (separator_suffix hb)).trans (shortNumber_suffix hhour)

theorem zone_cons {c : Char} {zoned : Int × List Char} (h : zone (c :: cs) = some zoned) :
    isDigit c = false ∧ c ≠ ':' ∧ c ≠ '.' := by
  unfold zone at h
  split at h
  case h_6 u _ _ _ _ _ _ _ _ _ heq =>
    cases heq
    split at h
    · next hu =>
      rcases hu.1 with rfl | rfl <;> decide
    · cases h
  case h_7 => cases h
  all_goals
    next heq =>
      cases heq
      decide

private theorem exists_zone_of_bind {β : Type}
    {next : (Nat × Nat × Nat × Nat) × List Char → Int × List Char → Option β}
    {result : β} (h : ((timeParts cs).bind fun time => (zone (dropBlank time.2)).bind (next time)) = some result) :
    ∃ c cs' zoned, (c :: cs') <:+ cs ∧ zone (c :: cs') = some zoned := by
  obtain ⟨⟨time, left⟩, htime, h⟩ := Option.bind_eq_some_iff.mp h
  obtain ⟨zoned, hzone, -⟩ := Option.bind_eq_some_iff.mp h
  have hsuffix := (dropBlank_suffix left).trans (timeParts_suffix htime)
  cases hd : dropBlank left with
  | nil =>
    simp only [hd] at hzone
    cases hzone
  | cons c cs' =>
    simp only [hd] at hzone hsuffix
    exact ⟨c, cs', zoned, hsuffix, hzone⟩

theorem exists_zone_of_read? {t : Timestamp} (h : read? cs = some t) :
    ∃ mark rest c cs' zoned, (mark :: rest) <:+ cs ∧ (mark = 't' ∨ mark = 'T' ∨ mark = ' ') ∧
      (c :: cs') <:+ rest ∧ zone (c :: cs') = some zoned := by
  simp only [read?, bind] at h
  obtain ⟨⟨date, left⟩, hdate, h⟩ := Option.bind_eq_some_iff.mp h
  have hsuffix := dateParts_suffix hdate
  dsimp only at h
  split at h
  · obtain ⟨c, cs', zoned, hzone⟩ := exists_zone_of_bind h
    exact ⟨'t', _, c, cs', zoned, hsuffix, .inl rfl, hzone⟩
  · obtain ⟨c, cs', zoned, hzone⟩ := exists_zone_of_bind h
    exact ⟨'T', _, c, cs', zoned, hsuffix, .inr (.inl rfl), hzone⟩
  · obtain ⟨c, cs', zoned, hzone⟩ := exists_zone_of_bind h
    exact ⟨' ', _, c, cs', zoned, hsuffix, .inr (.inr rfl), hzone⟩
  · cases h

def IsDated (c : Char) : Prop := isDigit c = true ∨ c = '-' ∨ c = '+'

def IsTimed (c : Char) : Prop := isDigit c = true ∨ c = ':' ∨ c = '.'

theorem isDated_yearText {year : Int} {c : Char} (h : c ∈ yearText year) : IsDated c := by
  simp only [yearText] at h
  split at h
  · exact .inl (isDigit_padded h)
  · rcases List.mem_cons.mp h with rfl | h
    · split
      · exact .inr (.inl rfl)
      · exact .inr (.inr rfl)
    · exact .inl (isDigit_padded h)

theorem isTimed_decimals {nano : Nat} {c : Char} (h : c ∈ decimals nano) : IsTimed c := by
  have hpoint {width n : Nat} (h : c ∈ '.' :: padded width n) : IsTimed c := by
    rcases List.mem_cons.mp h with rfl | h
    · exact .inr (.inr rfl)
    · exact .inl (isDigit_padded h)
  simp only [decimals] at h
  split at h
  · cases h
  · split at h
    · exact hpoint h
    · split at h
      · exact hpoint h
      · exact hpoint h

theorem exists_write_eq (t : Timestamp) : ∃ date time, t.write = date ++ 'T' :: (time ++ ['Z']) ∧
    (∀ c ∈ date, IsDated c) ∧ ∀ c ∈ time, IsTimed c := by
  obtain ⟨leap, nano, hwrite⟩ : ∃ leap nano, t.write = yearText t.date.year ++ '-' :: padded 2 t.date.month ++ '-' ::
      padded 2 t.date.day ++ 'T' :: padded 2 (t.second / 3600) ++ ':' :: padded 2 (t.second / 60 % 60) ++ ':' ::
      padded 2 (t.second % 60 + leap) ++ decimals nano ++ ['Z'] := ⟨_, _, rfl⟩
  refine ⟨yearText t.date.year ++ '-' :: padded 2 t.date.month ++ '-' :: padded 2 t.date.day,
    padded 2 (t.second / 3600) ++ ':' :: padded 2 (t.second / 60 % 60) ++ ':' ::
      padded 2 (t.second % 60 + leap) ++ decimals nano, by rw [hwrite]; simp, ?_, ?_⟩
  · intro c hc
    simp only [List.mem_append, List.mem_cons] at hc
    rcases hc with (hc | rfl | hc) | rfl | hc
    · exact isDated_yearText hc
    · exact .inr (.inl rfl)
    · exact .inl (isDigit_padded hc)
    · exact .inr (.inl rfl)
    · exact .inl (isDigit_padded hc)
  · intro c hc
    simp only [List.mem_append, List.mem_cons] at hc
    rcases hc with ((hc | rfl | hc) | rfl | hc) | hc
    · exact .inl (isDigit_padded hc)
    · exact .inr (.inl rfl)
    · exact .inl (isDigit_padded hc)
    · exact .inr (.inl rfl)
    · exact .inl (isDigit_padded hc)
    · exact isTimed_decimals hc

theorem read?_take_write (t : Timestamp) {n : Nat} (hn : n < t.write.length) : read? (t.write.take n) = none := by
  rw [Option.eq_none_iff_forall_ne_some]
  intro t' h
  obtain ⟨date, time, hwrite, hdate, htime⟩ := t.exists_write_eq
  obtain ⟨mark, rest, c, cs', zoned, ⟨front, hfront⟩, hmark, hzoned, hzone⟩ := exists_zone_of_read? h
  rw [hwrite, ← List.cons_append, ← List.append_assoc] at hfront hn
  have hcut : ((date ++ 'T' :: time) ++ ['Z']).take n = (date ++ 'T' :: time).take n := by
    apply List.take_append_of_le_length
    simpa [Nat.lt_succ_iff, ← Nat.add_assoc] using hn
  obtain ⟨after, hafter⟩ : ∃ after, front ++ mark :: (rest ++ after) = date ++ 'T' :: time := by
    refine ⟨(date ++ 'T' :: time).drop n, ?_⟩
    rw [← List.cons_append, ← List.append_assoc, hfront, hcut, List.take_append_drop]
  have hplain : ∀ d, IsDated d ∨ IsTimed d → d ≠ 't' ∧ d ≠ 'T' ∧ d ≠ ' ' := by
    intro d hd
    refine ⟨?_, ?_, ?_⟩ <;> rintro rfl <;> revert hd <;> simp [IsDated, IsTimed, isDigit]
  obtain rfl : mark = 'T' := by
    have hmem : mark ∈ date ++ 'T' :: time := hafter ▸ List.mem_append_right _ List.mem_cons_self
    rw [List.mem_append, List.mem_cons] at hmem
    have hnever : ¬(IsDated mark ∨ IsTimed mark) := fun hd => by
      obtain ⟨hlower, hupper, hblank⟩ := hplain mark hd
      exact hmark.elim hlower fun hother => hother.elim hupper hblank
    rcases hmem with hd | hmark | ht
    · exact absurd (.inl (hdate mark hd)) hnever
    · exact hmark
    · exact absurd (.inr (htime mark ht)) hnever
  have hdated : 'T' ∉ date := fun hd => (hplain 'T' (.inl (hdate 'T' hd))).2.1 rfl
  have htimed : 'T' ∉ time := fun ht => (hplain 'T' (.inr (htime 'T' ht))).2.1 rfl
  obtain ⟨-, -, hrest⟩ := (List.append_cons_inj_of_notMem hdated htimed).mp hafter.symm
  have hc : c ∈ time := by
    rw [hrest]
    exact List.mem_append_left _ (hzoned.mem List.mem_cons_self)
  obtain ⟨hdigit, hcolon, hpoint⟩ := zone_cons hzone
  rcases htime c hc with h | h | h
  · cases h.symm.trans hdigit
  · exact hcolon h
  · exact hpoint h

theorem toNat_lt_of_isDigit {c : Char} (h : isDigit c = true) : 48 ≤ c.toNat ∧ c.toNat < 58 := by
  simp only [isDigit, Bool.and_eq_true, decide_eq_true_eq] at h
  have hlow : 48 ≤ c.toNat := h.1
  have hhigh : c.toNat ≤ 57 := h.2
  exact ⟨hlow, Nat.lt_succ_of_le hhigh⟩

theorem toNat_lt_of_mem_write {t : Timestamp} {c : Char} (h : c ∈ t.write) : c.toNat < 128 := by
  have hplain {c : Char} (h : IsDated c ∨ IsTimed c) : c.toNat < 128 := by
    rcases h with (h | rfl | rfl) | (h | rfl | rfl)
    · exact Nat.lt_trans (toNat_lt_of_isDigit h).2 (by decide)
    · decide
    · decide
    · exact Nat.lt_trans (toNat_lt_of_isDigit h).2 (by decide)
    · decide
    · decide
  obtain ⟨date, time, hwrite, hdate, htime⟩ := t.exists_write_eq
  rw [hwrite, List.mem_append, List.mem_cons, List.mem_append, List.mem_singleton] at h
  rcases h with h | rfl | h | rfl
  · exact hplain (.inl (hdate c h))
  · decide
  · exact hplain (.inr (htime c h))
  · decide

/-- A moment takes a byte for each character, and so does every beginning of it. -/
theorem ofText_write_take (t : Timestamp) (n : Nat) :
    Bytes.ofText (String.ofList (t.write.take n)) = (Bytes.ofText t.toText).take n := by
  rw [toText, Bytes.ofText_ascii fun c hc => toNat_lt_of_mem_write hc,
    Bytes.ofText_ascii fun c hc => toNat_lt_of_mem_write (List.mem_of_mem_take hc), List.map_take]

/-- A text whose bytes are the first of a moment, but not all, is no moment. -/
theorem ofText?_of_take {t : Timestamp} {s : String} {n : Nat} (hs : Bytes.ofText s = (Bytes.ofText t.toText).take n)
    (hn : n < (Bytes.ofText t.toText).length) : ofText? s = none := by
  rw [← ofText_write_take] at hs
  have hs : s = String.ofList (t.write.take n) := by
    have := congrArg Bytes.toText? hs
    rw [Bytes.toText?_ofText, Bytes.toText?_ofText] at this
    exact Option.some.inj this
  rw [toText, Bytes.ofText_ascii fun c hc => toNat_lt_of_mem_write hc, List.length_map] at hn
  rw [hs, ofText?, String.toList_ofList, read?_take_write t hn]

theorem exists_ofText_cons (t : Timestamp) :
    ∃ a b rest, Bytes.ofText t.toText = a :: b :: rest ∧ 48 ≤ b.toNat := by
  have hyear : ∃ c d cs, yearText t.date.year = c :: d :: cs ∧ isDigit d = true := by
    simp only [yearText]
    split
    · have hlen : 4 ≤ (padded 4 t.date.year.toNat).length := by
        simp only [padded, List.length_append, List.length_replicate]
        omega
      obtain ⟨c, rest, hrest⟩ := List.exists_cons_of_length_pos (Nat.lt_of_lt_of_le (by decide) hlen)
      rw [hrest, List.length_cons] at hlen
      obtain ⟨d, cs, rfl⟩ := List.exists_cons_of_length_pos (l := rest) (by omega)
      exact ⟨c, d, cs, hrest, isDigit_padded (hrest ▸ List.mem_cons_of_mem _ List.mem_cons_self)⟩
    · obtain ⟨d, cs, hcs, hd⟩ := exists_padded 4 t.date.year.natAbs
      exact ⟨_, d, cs, by rw [hcs], hd⟩
  obtain ⟨c, d, cs, hyear, hd⟩ := hyear
  obtain ⟨rest, hwrite⟩ : ∃ rest, t.write = c :: d :: rest := by
    simp only [write, hyear, List.cons_append]
    exact ⟨_, rfl⟩
  rw [toText, Bytes.ofText_ascii fun c hc => toNat_lt_of_mem_write hc, hwrite]
  refine ⟨_, _, _, rfl, ?_⟩
  obtain ⟨hlow, hhigh⟩ := toNat_lt_of_isDigit hd
  rw [UInt8.toNat_ofNat']
  omega

end BuildCache.Timestamp
