import BuildCache.Config
import BuildCache.Duration

/-! # Retries with delays that grow by a factor up to a limit

Delays are computed in double precision from seconds. -/
namespace BuildCache

/-- What a delay is multiplied by: four fifths at least, and six fifths at most. -/
structure Spread where
  factor : Binary64
  proper : factor ≠ .nan
  least : factor.less (.ofDecimal false 8 (-1)) = false
  greatest : (Binary64.ofDecimal false 12 (-1)).less factor = false
  deriving DecidableEq

/-- A delay stays as it is. -/
def Spread.even : Spread := ⟨.ofNat 1, by decide +kernel, by decide +kernel, by decide +kernel⟩

structure RetryPolicy where
  maxRetries : Nat
  initialDelay : Duration
  multiplier : Binary64
  maxDelay : Duration
  /-- Whether delays are spread. -/
  jitter : Bool
  deriving DecidableEq

namespace RetryPolicy

open Duration (nanosPerSecond nanosPerMilli)

def default : RetryPolicy := ⟨3, 100 * nanosPerMilli, .ofNat 2, 5 * nanosPerSecond, true⟩

def noRetry : RetryPolicy := { default with maxRetries := 0 }

def ofConfig (r : RemoteConfig) : RetryPolicy :=
  { default with maxRetries := r.maxRetries, initialDelay := r.initialBackoffMs * nanosPerMilli }

/-- The number of attempts with the first one, counted in 32 bits. -/
def maxAttempts (p : RetryPolicy) : Nat := min (p.maxRetries + 1) 0xffffffff

/-- The greatest exponent that powers are taken to. -/
def exponentLimit : Nat := 0x7fffffff

/-- The delay before a retry, the first of which has number zero. -/
def delay? (p : RetryPolicy) (spread : Spread) (retry : Nat) : Option Duration :=
  let delay := (p.initialDelay.seconds.mul (p.multiplier.power (min retry exponentLimit))).least p.maxDelay.seconds
  Duration.ofSeconds? (if p.jitter then delay.mul spread.factor else delay)

/-- Attempts are counted in 32 bits. -/
def attemptLimit : Nat := 0x100000000

end RetryPolicy
end BuildCache
