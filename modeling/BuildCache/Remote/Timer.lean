import BuildCache.Duration

/-! # The timer of the runtime: waits end on its ticks -/
namespace BuildCache

/-- Moments are counted in nanoseconds from any of them. A span that the timer can be set to ends on the first
tick that is not before its end. One that is longer may end early, but not before the longest that it can. -/
structure Timer where
  tick : Nat
  tick_pos : 0 < tick
  /-- The time from a tick to the first of the moments. -/
  phase : Nat
  /-- The longest span that the timer can be set to. -/
  span : Duration
  ends : (begun : Nat) → Duration → Nat
  on_tick : ∀ begun d, d ≤ span → tick ∣ ends begun d + phase
  not_early : ∀ begun d, begun + min d span ≤ ends begun d
  in_time : ∀ begun d, d ≤ span → ends begun d < begun + d + tick

namespace Timer

/-- The first multiple that is not before a moment. -/
def roundUp (tick moment : Nat) : Nat := (moment + tick - 1) / tick * tick

theorem roundUp_spec {tick : Nat} (h : 0 < tick) (moment : Nat) :
    tick ∣ roundUp tick moment ∧ moment ≤ roundUp tick moment ∧ roundUp tick moment < moment + tick := by
  have hdiv := Nat.div_add_mod (moment + tick - 1) tick
  have hmod := Nat.mod_lt (moment + tick - 1) h
  have hcomm := Nat.mul_comm tick ((moment + tick - 1) / tick)
  refine ⟨Nat.dvd_mul_left _ _, ?_, ?_⟩ <;> unfold roundUp <;> omega

/-- A timer whose ticks are multiples, and that cuts longer spans. -/
def cutting (tick : Nat) (tick_pos : 0 < tick) (span : Duration) : Timer where
  tick := tick
  tick_pos := tick_pos
  phase := 0
  span := span
  ends begun d := roundUp tick (begun + min d span)
  on_tick _ _ _ := (roundUp_spec tick_pos _).1
  not_early _ _ := (roundUp_spec tick_pos _).2.1
  in_time begun d h := by
    have hround := (roundUp_spec tick_pos (begun + min d span)).2.2
    rwa [Nat.min_eq_left h] at hround ⊢

/-- Ticks every millisecond, for thirty years of 365 days ahead. -/
def millisecond : Timer :=
  cutting Duration.nanosPerMilli (by decide) (30 * 365 * 24 * 60 * 60 * Duration.nanosPerSecond)

end Timer
end BuildCache
