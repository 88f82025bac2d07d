import Mathlib.Algebra.Ring.Nat
import Mathlib.Tactic.Common
import BuildCache.Timestamp.Text

/-! # Moments as text: what is written is read back, far years and leap seconds at the end of a minute included -/
namespace BuildCache

namespace Timestamp

open Text

def newYear : Timestamp := ⟨⟨2024, 1, 1, by decide⟩, 0, 0, by decide, by decide⟩

theorem toNumber_append_zeros (ds : List Char) (k : Nat) :
    toNumber (ds ++ List.replicate k '0') = toNumber ds * 10 ^ k := by
  induction k with
  | zero => simp
  | succ k ih =>
    have hsnoc : toNumber ((ds ++ List.replicate k '0') ++ ['0']) = 10 * toNumber
      (ds ++ List.replicate k '0') + 0 := by
      simp only [toNumber, List.foldl_append, List.foldl_cons, List.foldl_nil]
      rfl
    rw [List.replicate_succ', ← List.append_assoc, hsnoc, ih, Nat.pow_succ, Nat.add_zero,
      Nat.mul_comm, Nat.mul_assoc]

theorem toNumber_zeros_append (k : Nat) (ds : List Char) :
    toNumber (List.replicate k '0' ++ ds) = toNumber ds := by
  induction k with
  | zero => rfl
  | succ k ih => exact ih

theorem toNumber_toDigits (n : Nat) : toNumber (Nat.toDigits 10 n) = n := Nat.ofDigitChars_ten_toDigits

@[simp] theorem toNumber_padded (width n : Nat) : toNumber (padded width n) = n := by
  rw [padded, toNumber_zeros_append, toNumber_toDigits]

theorem isDigit_padded {width n : Nat} {c : Char} (h : c ∈ padded width n) : isDigit c = true := by
  rcases List.mem_append.mp h with h | h
  · rw [(List.mem_replicate.mp h).2]
    rfl
  · exact Nat.isDigit_of_mem_toDigits (by decide) (by decide) h

theorem length_padded {width n : Nat} (hw : 0 < width) (h : n < 10 ^ width) :
    (padded width n).length = width := by
  have hle : (Nat.toDigits 10 n).length ≤ width := (Nat.length_toDigits_le_iff (by decide) hw).mpr h
  simp only [padded, List.length_append, List.length_replicate]
  omega

theorem padded_ne_nil (width n : Nat) : padded width n ≠ [] := by
  intro h
  exact Nat.toDigits_ne_nil (List.append_eq_nil_iff.mp h).2

/-- Nothing that would be taken for a further digit comes first. -/
def Stops (cs : List Char) : Prop := ∀ c ∈ cs.head?, isDigit c = false

theorem takeWhile_stops {cs : List Char} (h : Stops cs) (n : Nat) :
    (cs.take n).takeWhile isDigit = [] := by
  cases cs with
  | nil => simp
  | cons c cs =>
    cases n with
    | zero => rfl
    | succ n => simp [h c rfl]

theorem digits_append {limit : Nat} {ds rest : List Char} (hne : ds ≠ [])
    (hd : ∀ c ∈ ds, isDigit c = true)
    (hlen : ds.length ≤ limit) (hstop : Stops rest) : digits limit (ds ++ rest) = some (ds, rest) := by
  have htake : ((ds ++ rest).take limit).takeWhile isDigit = ds := by
    rw [List.take_append, List.take_of_length_le hlen, List.takeWhile_append_of_pos hd,
      takeWhile_stops hstop, List.append_nil]
  simp only [digits]
  rw [htake]
  cases ds with
  | nil => exact absurd rfl hne
  | cons d ds => simp

theorem digits_padded {limit width n : Nat} {rest : List Char} (hlen : (padded width n).length ≤ limit)
    (hstop : Stops rest) : digits limit (padded width n ++ rest) = some (padded width n, rest) :=
  digits_append (padded_ne_nil width n) (fun _ hc => isDigit_padded hc) hlen hstop

theorem isBlank_of_isDigit {c : Char} (h : isDigit c = true) : isBlank c = false := by
  simp only [isDigit, Bool.and_eq_true, decide_eq_true_eq] at h
  have hlow : 48 ≤ c.toNat := h.1
  have hhigh : c.toNat ≤ 57 := h.2
  simp only [isBlank, Bool.or_eq_false_iff, Bool.and_eq_false_iff, decide_eq_false_iff_not]
  omega

theorem exists_padded (width n : Nat) : ∃ c cs, padded width n = c :: cs ∧ isDigit c = true := by
  obtain ⟨c, cs, hcs⟩ := List.exists_cons_of_ne_nil (padded_ne_nil width n)
  refine ⟨c, cs, hcs, ?_⟩
  have hmem : c ∈ padded width n := by rw [hcs]; exact List.mem_cons_self
  exact isDigit_padded hmem

theorem dropBlank_padded (width n : Nat) (rest : List Char) :
    dropBlank (padded width n ++ rest) = padded width n ++ rest := by
  obtain ⟨c, cs, hcs, hc⟩ := exists_padded width n
  rw [hcs, dropBlank, List.cons_append, List.dropWhile_cons_of_neg
    (by rw [isBlank_of_isDigit hc]; decide)]

theorem shortNumber_padded {low high n : Nat} (hlow : low ≤ n) (hhigh : n ≤ high) (hn : n < 100)
    {rest : List Char}
    (hstop : Stops rest) : shortNumber low high (padded 2 n ++ rest) = some (n, rest) := by
  have hlen : (padded 2 n).length ≤ 2 := Nat.le_of_eq (length_padded (by decide) hn)
  simp only [shortNumber, dropBlank_padded, digits_padded hlen hstop, bind, Option.bind_some,
    toNumber_padded, if_pos (And.intro hlow hhigh)]

private theorem yearNumber_of_digit {c : Char} {cs : List Char} (hc : isDigit c = true) :
    yearNumber (c :: cs) = (digits 4 (c :: cs)).map fun (ds, rest) => ((toNumber ds : Int), rest) := by
  have hdrop : dropBlank (c :: cs) = c :: cs :=
    List.dropWhile_cons_of_neg (by rw [isBlank_of_isDigit hc]; decide)
  simp only [yearNumber]
  rw [hdrop]
  split
  · next h =>
    cases h
    cases hc
  · next h =>
    cases h
    cases hc
  · rfl

theorem yearNumber_yearText (year : Int) {rest : List Char} (hstop : Stops rest) :
    yearNumber (yearText year ++ rest) = some (year, rest) := by
  simp only [yearText]
  split
  · next h =>
    have hlen : (padded 4 year.toNat).length ≤ 4 := Nat.le_of_eq (length_padded (by decide) (by omega))
    obtain ⟨c, cs, hcs, hc⟩ := exists_padded 4 year.toNat
    have hdigits := digits_padded hlen hstop
    rw [hcs, List.cons_append] at hdigits ⊢
    rw [yearNumber_of_digit hc, hdigits, ← hcs]
    simp only [Option.map_some, toNumber_padded, Int.toNat_of_nonneg h.1]
  · next h =>
    have hlen : (padded 4 year.natAbs).length ≤ (padded 4 year.natAbs ++ rest).length := by simp
    have hdigits := digits_padded hlen hstop
    split
    · next hneg =>
      have hdrop : dropBlank ('-' :: padded 4 year.natAbs ++ rest) = '-' ::
        (padded 4 year.natAbs ++ rest) := rfl
      simp only [yearNumber, hdrop, hdigits, Option.map_some, toNumber_padded, Option.some.injEq,
        Prod.mk.injEq, and_true]
      omega
    · next hneg =>
      have hdrop : dropBlank ('+' :: padded 4 year.natAbs ++ rest) = '+' ::
        (padded 4 year.natAbs ++ rest) := rfl
      simp only [yearNumber, hdrop, hdigits, Option.map_some, toNumber_padded, Option.some.injEq,
        Prod.mk.injEq, and_true]
      omega

theorem daysIn_le (year : Int) (month : Nat) : Date.daysIn year month ≤ 31 := by
  simp only [Date.daysIn]
  split
  · split <;> decide
  · split <;> decide

theorem dateParts_write (d : Date) {rest : List Char} (hstop : Stops rest) :
    dateParts (yearText d.year ++ ('-' :: (padded 2 d.month ++ ('-' :: (padded 2 d.day ++ rest)))))
      = some ((d.year, d.month, d.day), rest) := by
  obtain ⟨-, -, hm1, hm2, hd1, hd2⟩ := d.valid
  have hday := Nat.le_trans hd2 (daysIn_le d.year d.month)
  have hdash : ∀ cs, Stops ('-' :: cs) := fun cs c hc => by
    cases hc
    rfl
  have hsep : ∀ cs, separator '-' ('-' :: cs) = some cs := fun cs => rfl
  simp only [dateParts, yearNumber_yearText d.year (hdash _), bind, Option.bind_some, hsep,
    shortNumber_padded hm1 hm2 (by omega) (hdash _), shortNumber_padded hd1 hday (by omega) hstop, pure]

private theorem fraction_padded {k n : Nat} (hk : 0 < k) (hk9 : k ≤ 9) (hn : n < 10 ^ k) :
    fraction ('.' :: padded k n ++ ['Z']) = some (n * 10 ^ (9 - k), ['Z']) := by
  have hlen := length_padded hk hn
  have hstop : Stops ['Z'] := fun c hc => by
    cases hc
    rfl
  have hdigits : digits 9 (padded k n ++ ['Z']) = some (padded k n, ['Z']) :=
    digits_padded (by omega) hstop
  simp only [List.cons_append, fraction, hdigits, bind, Option.bind_some, pure, hlen,
    toNumber_append_zeros, toNumber_padded]
  rfl

theorem fraction_decimals {nano : Nat} (h : nano < 1000000000) :
    fraction (decimals nano ++ ['Z']) = some (nano, ['Z']) := by
  simp only [decimals]
  split
  · next h0 =>
    rw [h0]
    rfl
  · split
    · rw [fraction_padded (by decide) (by decide) (by omega)]
      congr 2
      omega
    · split
      · rw [fraction_padded (by decide) (by decide) (by omega)]
        congr 2
        omega
      · rw [fraction_padded (by decide) (by decide) (by omega)]
        simp

private theorem stops_decimals (nano : Nat) : Stops (decimals nano ++ ['Z']) := by
  intro c hc
  simp only [decimals] at hc
  repeat' split at hc
  all_goals
    cases hc
    rfl

theorem timeParts_write {hour minute second nano : Nat} (hh : hour ≤ 23) (hm : minute ≤ 59)
    (hs : second ≤ 60) (hn : nano < 1000000000) :
    timeParts (padded 2 hour ++ (':' :: (padded 2 minute ++ (':' ::
      (padded 2 second ++ (decimals nano ++ ['Z']))))))
      = some ((hour, minute, second, nano), ['Z']) := by
  have hcolon : ∀ cs, Stops (':' :: cs) := fun cs c hc => by
    cases hc
    rfl
  have hsep : ∀ cs, separator ':' (':' :: cs) = some cs := fun cs => rfl
  simp only [timeParts, shortNumber_padded (Nat.zero_le _) hh (by omega) (hcolon _), bind,
    Option.bind_some, hsep, shortNumber_padded (Nat.zero_le _) hm (by omega) (hcolon _),
    shortNumber_padded (Nat.zero_le _) hs (by omega) (stops_decimals nano), fraction_decimals hn, pure]

private theorem read?_parts (d : Date) (hour minute second nano : Nat) (hh : hour ≤ 23) (hm : minute ≤ 59)
    (hs : second ≤ 60) (hn : nano < 1000000000) :
    read? (yearText d.year ++ ('-' :: (padded 2 d.month ++ ('-' ::
      (padded 2 d.day ++ ('T' :: (padded 2 hour
      ++ (':' :: (padded 2 minute ++ (':' :: (padded 2 second ++ (decimals nano ++ ['Z'])))))))))))) =
    ofLocal? d (hour * 3600 + minute * 60 + if second = 60 then 59 else second)
      (if second = 60 then nano + 1000000000 else nano) 0 := by
  have hstop : ∀ cs, Stops ('T' :: cs) := fun cs c hc => by
    cases hc
    rfl
  have hdate : Date.of? d.year d.month d.day = some d := dif_pos d.valid
  have hzone : zone (dropBlank ['Z']) = some (0, []) := rfl
  have hblank : dropBlank [] = [] := rfl
  simp only [read?, dateParts_write d (hstop _), bind, Option.bind_some,
    timeParts_write hh hm hs hn, hzone, hblank, Int.natAbs_zero, hdate]
  by_cases h60 : second = 60
  · simp [h60]
  · simp [h60]

theorem regular_eq {t : Timestamp} (h : t.IsRegular) : t.regular = t := dif_pos h

@[simp] theorem regular_eq_iff {t : Timestamp} : t.regular = t ↔ t.IsRegular := by
  refine ⟨fun h => ?_, regular_eq⟩
  by_contra hno
  have hsecond := congrArg second h
  rw [regular, dif_neg hno] at hsecond
  exact absurd hsecond (Nat.succ_ne_self _)

private theorem ofLocal?_zero (date : Date) {second nano n : Nat} (hsecond : second < 86400)
    (hnano : nano < 2000000000) (h : n = second) :
    ofLocal? date n nano 0 = some ⟨date, second, nano, hsecond, hnano⟩ := by
  subst h
  have hlt : (n : Int) < 86400 := by omega
  simp only [ofLocal?, Int.sub_zero, if_neg (Int.not_lt.mpr (Int.natCast_nonneg n)),
    if_neg (Int.not_le.mpr hlt), Int.toNat_natCast, of?, dif_pos (And.intro hsecond hnano)]

/-- What is written is read back, but for leap seconds within a minute. -/
theorem ofText?_toText (t : Timestamp) : ofText? t.toText = some t.regular := by
  obtain ⟨date, second, nano, hsecond, hnano⟩ := t
  rw [ofText?, toText, String.toList_ofList]
  by_cases h : nano < 1000000000
  · have hread := read?_parts date (second / 3600) (second / 60 % 60) (second % 60) nano
      (by omega) (by omega)
      (by omega) h
    have hne : second % 60 ≠ 60 := by omega
    rw [if_neg hne, if_neg hne, ofLocal?_zero date hsecond hnano (by omega)] at hread
    rw [regular_eq (.inl h)]
    simp only [write, if_pos h, List.append_assoc, List.cons_append, Nat.add_zero]
    exact hread
  · have hread := read?_parts date (second / 3600) (second / 60 % 60) (second % 60 + 1) (nano - 1000000000)
      (by omega) (by omega) (by omega) (by omega)
    simp only [write, if_neg h, List.append_assoc, List.cons_append]
    rw [hread]
    by_cases hleap : second % 60 = 59
    · have hsum : nano - 1000000000 + 1000000000 = nano := by omega
      rw [if_pos (by omega), if_pos (by omega), hsum, ofLocal?_zero date hsecond hnano (by omega),
        regular_eq (.inr hleap)]
    · have hno : ¬IsRegular ⟨date, second, nano, hsecond, hnano⟩ := fun hr => hr.elim h hleap
      rw [if_neg (by omega), if_neg (by omega), regular, dif_neg hno]
      refine ofLocal?_zero date _ _ ?_
      show _ = second + 1
      omega

theorem ofText?_toText_eq_iff {t : Timestamp} : ofText? t.toText = some t ↔ t.IsRegular := by
  rw [ofText?_toText, Option.some.injEq, regular_eq_iff]

/-- Offsets are whole minutes, so what is read is a leap second at the end of a minute at most. -/
theorem offset_mod {cs rest : List Char} {n : Nat} (h : offset cs = some (n, rest)) : n % 60 = 0 := by
  unfold offset at h
  split at h
  · split at h
    · split at h
      · split at h
        · cases h
          omega
        · cases h
      · cases h
    · cases h
  · cases h

theorem zone_mod {cs rest : List Char} {ahead : Int} (h : zone cs = some (ahead, rest)) : ahead % 60 = 0 := by
  unfold zone at h
  split at h
  · cases h
    rfl
  · cases h
    rfl
  · obtain ⟨⟨n, left⟩, hn, he⟩ := Option.map_eq_some_iff.mp h
    cases he
    have := offset_mod hn
    omega
  · obtain ⟨⟨n, left⟩, hn, he⟩ := Option.map_eq_some_iff.mp h
    cases he
    have := offset_mod hn
    omega
  · obtain ⟨⟨n, left⟩, hn, he⟩ := Option.map_eq_some_iff.mp h
    cases he
    have := offset_mod hn
    omega
  · split at h
    · cases h
      rfl
    · cases h
  · cases h

theorem isRegular_of? {date : Date} {second nano : Nat} {t : Timestamp} (h : of? date second nano = some t)
    (hregular : nano < 1000000000 ∨ second % 60 = 59) : t.IsRegular := by
  unfold of? at h
  split at h
  · cases h
    exact hregular
  · cases h

theorem isRegular_of_ofLocal? {date : Date} {second nano : Nat} {ahead : Int} {t : Timestamp}
    (h : ofLocal? date second nano ahead = some t) (hahead : ahead % 60 = 0)
    (hday : ahead.natAbs < 86400) (hregular : nano < 1000000000 ∨ second % 60 = 59) : t.IsRegular := by
  simp only [ofLocal?] at h
  split at h
  · obtain ⟨day, -, h⟩ := Option.bind_eq_some_iff.mp h
    exact isRegular_of? h (by omega)
  · split at h
    · obtain ⟨day, -, h⟩ := Option.bind_eq_some_iff.mp h
      exact isRegular_of? h (by omega)
    · exact isRegular_of? h (by omega)

theorem toNumber_lt {ds : List Char} (h : ∀ c ∈ ds, isDigit c = true) : toNumber ds < 10 ^ ds.length := by
  -- the last digit is the lowest, so the induction is from behind
  suffices hrev : ∀ rev : List Char, (∀ c ∈ rev, isDigit c = true) → toNumber rev.reverse < 10 ^ rev.length by
    simpa using hrev ds.reverse (by simpa using h)
  intro rev
  induction rev with
  | nil => exact fun _ => by decide
  | cons c rev ih =>
    intro hrev
    have hc := hrev c List.mem_cons_self
    simp only [isDigit, Bool.and_eq_true, decide_eq_true_eq] at hc
    have hhigh : c.toNat ≤ 57 := hc.2
    have hlow := ih fun d hd => hrev d (List.mem_cons_of_mem c hd)
    have hsnoc : toNumber (rev.reverse ++ [c]) = 10 * toNumber rev.reverse + (c.toNat - 48) := List.foldl_append ..
    rw [List.reverse_cons, hsnoc, List.length_cons, Nat.pow_succ]
    omega

theorem fraction_lt {cs rest : List Char} {nano : Nat} (h : fraction cs = some (nano, rest)) : nano < 1000000000 := by
  unfold fraction at h
  split at h
  · next cs =>
    simp only [bind, Option.bind_eq_some_iff, pure, Option.some.injEq, Prod.mk.injEq] at h
    obtain ⟨⟨ds, left⟩, hd, rfl, -⟩ := h
    unfold digits at hd
    split at hd
    · cases hd
    · cases hd
      have hdigits : ∀ c ∈ (cs.take 9).takeWhile isDigit, isDigit c = true :=
        fun c hc => List.all_eq_true.mp List.all_takeWhile c hc
      have hlt := toNumber_lt hdigits
      have hlen : ((cs.take 9).takeWhile isDigit).length ≤ 9 :=
        Nat.le_trans (List.takeWhile_sublist _).length_le (List.length_take_le 9 cs)
      rw [toNumber_append_zeros]
      calc toNumber ((cs.take 9).takeWhile isDigit) * 10 ^ (9 - ((cs.take 9).takeWhile isDigit).length)
          < 10 ^ ((cs.take 9).takeWhile isDigit).length * 10 ^ (9 - ((cs.take 9).takeWhile isDigit).length) :=
            Nat.mul_lt_mul_of_pos_right hlt (Nat.pow_pos (by decide))
        _ = 1000000000 := by rw [← Nat.pow_add, Nat.add_sub_cancel' hlen]
  · cases h
    decide

/-- A moment that is read has a text that gives it back. -/
theorem isRegular_of_ofText? {s : String} {t : Timestamp} (h : ofText? s = some t) : t.IsRegular := by
  simp only [ofText?, read?, bind] at h
  obtain ⟨⟨date, left⟩, -, h⟩ := Option.bind_eq_some_iff.mp h
  dsimp only at h
  split at h
  case h_4 => cases h
  -- the three marks between date and time are alike
  all_goals
    rw [Option.bind_some] at h
    obtain ⟨⟨⟨hour, minute, second, nano⟩, left⟩, htime, h⟩ := Option.bind_eq_some_iff.mp h
    obtain ⟨⟨ahead, left⟩, hzone, h⟩ := Option.bind_eq_some_iff.mp h
    simp only [timeParts, bind, Option.bind_eq_some_iff, pure, Option.some.injEq, Prod.mk.injEq] at htime
    obtain ⟨_, -, _, -, _, -, _, -, _, -, ⟨n, _⟩, hnano, ⟨-, -, -, rfl⟩, -⟩ := htime
    have hlt := fraction_lt hnano
    dsimp only at h
    split at h
    · next hend =>
      obtain ⟨day, -, h⟩ := Option.bind_eq_some_iff.mp h
      refine isRegular_of_ofLocal? h (zone_mod hzone) hend.2 ?_
      split
      · dsimp only
        omega
      · exact .inl hlt
    · cases h

end Timestamp

end BuildCache
