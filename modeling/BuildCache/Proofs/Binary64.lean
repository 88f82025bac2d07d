import Mathlib.Tactic.Linarith
import Mathlib.Tactic.Ring
import BuildCache.Duration

/-! # Double precision: signs, and the order that rounding keeps -/
namespace BuildCache.Binary64

@[simp] theorem scale_zero (e low : Int) : scale 0 e low = 0 := Nat.zero_shiftLeft _

theorem scale_eq (n : Nat) (e low : Int) : scale n e low = n * 2 ^ (e - low).toNat := Nat.shiftLeft_eq _ _

@[simp] theorem isNegative_nan : nan.isNegative = false := rfl

@[simp] theorem isNegative_infinite (negative : Bool) : (infinite negative).isNegative = negative := rfl

@[simp] theorem isNegative_finite {negative : Bool} {m : Nat} {e : Int} :
    (finite negative m e).isNegative = false ↔ negative = false ∨ m = 0 := by
  cases negative <;> simp [isNegative]

theorem isNegative_ofRatio {negative : Bool} {num den : Nat} (h : negative = false ∨ num = 0) :
    (ofRatio negative num den).isNegative = false := by
  unfold ofRatio
  split
  · exact isNegative_finite.mpr (.inr rfl)
  · next hne =>
    obtain rfl : negative = false := h.resolve_right hne
    dsimp only
    split <;> split <;> rfl

theorem isNegative_ofScaled {negative : Bool} {num den : Nat} {e : Int} (h : negative = false ∨ num = 0) :
    (ofScaled negative num den e).isNegative = false :=
  isNegative_ofRatio (h.imp_right fun h0 => by rw [h0, scale_zero])

theorem isNegative_ofNat (n : Nat) : (ofNat n).isNegative = false := isNegative_ofRatio (.inl rfl)

section

variable {x y : Binary64}

theorem isNegative_mul (hx : x.isNegative = false) (hy : y.isNegative = false) : (x.mul y).isNegative = false := by
  rcases x with _ | a | ⟨a, m, e⟩ <;> rcases y with _ | b | ⟨b, n, f⟩ <;> try rfl
  · rw [isNegative_infinite] at hx hy
    simp [mul, hx, hy]
  · rw [isNegative_infinite] at hx
    by_cases hn : n = 0
    · simp [mul, hn]
    · simp [mul, hn, hx, (isNegative_finite.mp hy).resolve_right hn]
  · rw [isNegative_infinite] at hy
    by_cases hm : m = 0
    · simp [mul, hm]
    · simp [mul, hm, hy, (isNegative_finite.mp hx).resolve_right hm]
  · apply isNegative_ofScaled
    rcases isNegative_finite.mp hx with rfl | rfl
    · exact (isNegative_finite.mp hy).imp (fun h => by rw [h]; rfl) fun h => by rw [h, Nat.mul_zero]
    · exact .inr (Nat.zero_mul n)

theorem isNegative_div (hx : x.isNegative = false) {n : Nat} {f : Int} :
    (x.div (finite false n f)).isNegative = false := by
  rcases x with _ | a | ⟨a, m, e⟩
  · rfl
  · rw [isNegative_infinite] at hx
    simp [div, hx]
  · simp only [div]
    split
    · rcases isNegative_finite.mp hx with rfl | rfl
      · split <;> rfl
      · rfl
    · exact isNegative_ofScaled ((isNegative_finite.mp hx).imp (fun h => by rw [h]; rfl) id)

theorem multiple_eq {negative : Bool} {m : Nat} {e : Int} (h : (finite negative m e).isNegative = false) (low : Int) :
    multiple negative m e low = scale m e low := by
  rcases isNegative_finite.mp h with rfl | rfl
  · rfl
  · cases negative <;> simp [multiple]

theorem isNegative_add (hx : x.isNegative = false) (hy : y.isNegative = false) : (x.add y).isNegative = false := by
  rcases x with _ | a | ⟨a, m, e⟩ <;> rcases y with _ | b | ⟨b, n, f⟩ <;> try rfl
  · rw [isNegative_infinite] at hx hy
    simp [add, hx, hy]
  · exact hx
  · exact hy
  · simp only [add, multiple_eq hx, multiple_eq hy]
    apply isNegative_ofScaled
    split
    · next hsum => exact .inr (by rw [hsum]; rfl)
    · exact .inl (by simp only [decide_eq_false_iff_not]; omega)

theorem isNegative_powerFrom {product base : Binary64} {n : Nat} (hp : product.isNegative = false)
    (hb : base.isNegative = false) : (powerFrom product base n).isNegative = false := by
  have hstep {product base : Binary64} {n : Nat} (hp : product.isNegative = false) (hb : base.isNegative = false) :
      (if n % 2 = 1 then product.mul base else product).isNegative = false := by
    split
    · exact isNegative_mul hp hb
    · exact hp
  fun_induction powerFrom product base n with
  | case1 => exact hstep hp hb
  | case2 _ _ _ _ _ ih => exact ih (hstep hp hb) (isNegative_mul hb hb)

theorem isNegative_power (hx : x.isNegative = false) (n : Nat) : (x.power n).isNegative = false :=
  isNegative_powerFrom (isNegative_ofNat 1) hx

end

theorem roundDiv_tie {num den k : Nat} (hd : 0 < den) (h : 2 * num = (2 * k + 1) * den) :
    roundDiv num den = k + k % 2 := by
  have hsplit : 2 * num = den + 2 * (den * k) := by rw [h]; ring
  have hquot : num / den = k := by
    apply Nat.div_eq_of_lt_le
    · rw [Nat.mul_comm]; omega
    · rw [Nat.mul_comm, Nat.mul_succ]; omega
  have hrest : 2 * (num % den) = den := by
    have := Nat.div_add_mod num den
    rw [hquot] at this
    omega
  simp only [roundDiv, hquot, hrest, Nat.lt_irrefl, false_or, true_and]
  split <;> omega

/-- Rounding keeps the order of fractions: where it would turn it around, both are the same tie. -/
theorem roundDiv_le_roundDiv {num den num' den' : Nat} (hd : 0 < den) (hd' : 0 < den')
    (h : num * den' ≤ num' * den) : roundDiv num den ≤ roundDiv num' den' := by
  have hlow : 2 * roundDiv num den * den ≤ 2 * num + den := (roundDiv_bounds hd).2
  have hhigh : 2 * num' ≤ (2 * roundDiv num' den' + 1) * den' := (roundDiv_bounds hd').1
  by_contra hlt
  obtain ⟨k, hk⟩ : ∃ k, k = roundDiv num' den' := ⟨_, rfl⟩
  rw [← hk] at hhigh
  have hnum : (2 * k + 1) * den ≤ 2 * num := by
    have : 2 * (k + 1) * den ≤ 2 * roundDiv num den * den := Nat.mul_le_mul_right den (by omega)
    linarith
  have htie : 2 * num = (2 * k + 1) * den := by
    apply Nat.le_antisymm (Nat.le_of_mul_le_mul_right _ hd') hnum
    calc 2 * num * den' ≤ 2 * num' * den := by linarith
      _ ≤ (2 * k + 1) * den' * den := Nat.mul_le_mul_right den hhigh
      _ = (2 * k + 1) * den * den' := by ring
  have htie' : 2 * num' = (2 * k + 1) * den' := by
    apply Nat.le_antisymm hhigh (Nat.le_of_mul_le_mul_right _ hd)
    calc (2 * k + 1) * den' * den = 2 * num * den' := by rw [htie]; ring
      _ ≤ 2 * num' * den := by linarith
  rw [roundDiv_tie hd htie, roundDiv_tie hd' htie'] at hlt
  exact hlt (Nat.le_refl _)

/-- Multiples of one power of two that are in order stay so when both are scaled to another one. -/
theorem round?_mono {a b : Bool} {m n : Nat} {e f : Int} (h : scale m e (min e f) ≤ scale n f (min e f))
    (factor : Nat) : ∃ i j, (finite a m e).round? factor = some i ∧ (finite b n f).round? factor = some j ∧
    i ≤ j := by
  refine ⟨_, _, rfl, rfl, roundDiv_le_roundDiv ?_ ?_ ?_⟩
  · simp [scale_eq]
  · simp [scale_eq]
  · obtain ⟨c, hc, hc'⟩ : ∃ c, e.toNat + (-f).toNat = (e - min e f).toNat + c ∧
        f.toNat + (-e).toNat = (f - min e f).toNat + c :=
      ⟨((-e).toNat + (-f).toNat + min e f).toNat, by omega, by omega⟩
    simp only [scale_eq, Int.sub_zero, one_mul] at h ⊢
    calc m * factor * 2 ^ e.toNat * 2 ^ (-f).toNat
        = m * 2 ^ (e - min e f).toNat * (factor * 2 ^ c) := by rw [mul_assoc _ (2 ^ _), ← pow_add, hc, pow_add]; ring
      _ ≤ n * 2 ^ (f - min e f).toNat * (factor * 2 ^ c) := Nat.mul_le_mul_right _ h
      _ = n * factor * 2 ^ f.toNat * 2 ^ (-e).toNat := by
        rw [mul_assoc (n * _) (2 ^ _), ← pow_add, hc', pow_add]
        ring

end BuildCache.Binary64

namespace BuildCache.Duration

open Binary64

theorem isNegative_seconds (d : Duration) : d.seconds.isNegative = false :=
  isNegative_add (isNegative_ofNat _) (isNegative_div (isNegative_ofNat _))

theorem ofSeconds?_eq_some {x : Binary64} {d : Duration} : ofSeconds? x = some d ↔
    x.isNegative = false ∧ x.round? nanosPerSecond = some d ∧ d < 0x10000000000000000 * nanosPerSecond := by
  cases hx : x.isNegative with
  | true => simp [ofSeconds?, hx]
  | false =>
    cases hr : x.round? nanosPerSecond with
    | none => simp [ofSeconds?, hx, hr]
    | some n =>
      simp only [ofSeconds?, hx, hr, Bool.false_eq_true, if_false, Option.bind_eq_bind, Option.bind_some,
        Option.some.injEq, true_and]
      constructor
      · intro h
        split at h
        · next hn => exact ⟨Option.some.inj h, Option.some.inj h ▸ hn⟩
        · cases h
      · rintro ⟨rfl, hn⟩
        exact if_pos hn

theorem ofSeconds?_least {x limit : Binary64} (hx : x.isNegative = false) {d : Duration}
    (hlimit : ofSeconds? limit = some d) : ∃ d' ≤ d, ofSeconds? (x.least limit) = some d' := by
  unfold least
  split
  · exact ⟨d, Nat.le_refl _, hlimit⟩
  · next hle =>
    obtain ⟨hnan, hless⟩ := not_or.mp hle
    obtain ⟨hn, hround, hd⟩ := ofSeconds?_eq_some.mp hlimit
    rcases limit with _ | b | ⟨b, n, f⟩
    · cases hround
    · cases hround
    · rcases x with _ | a | ⟨a, m, e⟩
      · exact absurd rfl hnan
      · rw [isNegative_infinite] at hx
        simp [less, hx] at hless
      · have hmultiple : scale m e (min e f) ≤ scale n f (min e f) := by
          simpa [less, multiple_eq hx, multiple_eq hn, Int.min_comm] using hless
        obtain ⟨i, j, hi, hj, hij⟩ := round?_mono (a := a) (b := b) hmultiple nanosPerSecond
        obtain rfl : j = d := Option.some.inj (hj.symm.trans hround)
        exact ⟨i, hij, ofSeconds?_eq_some.mpr ⟨hx, hi, Nat.lt_of_le_of_lt hij hd⟩⟩

end BuildCache.Duration
