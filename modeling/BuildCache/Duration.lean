import BuildCache.Binary64

/-! # Spans of time in nanoseconds, and as seconds in double precision -/
namespace BuildCache

abbrev Duration := Nat

namespace Duration

def nanosPerSecond : Nat := 1000000000
def nanosPerMilli : Nat := 1000000

def millis (d : Duration) : Nat := d / nanosPerMilli

def seconds (d : Duration) : Binary64 :=
  (Binary64.ofNat (d / nanosPerSecond)).add ((Binary64.ofNat (d % nanosPerSecond)).div (.ofNat nanosPerSecond))

/-- The span nearest to a number of seconds, which must not be negative and have 64 bits at most. -/
def ofSeconds? (x : Binary64) : Option Duration := do
  if x.isNegative then none
  else
    let n ← x.round? nanosPerSecond
    if n < 0x10000000000000000 * nanosPerSecond then some n else none

/-- The seconds with two places, a tie going to the even last digit. -/
def secondsText (d : Duration) : String :=
  let hundredths := (d.seconds.round? 100).getD 0
  toString (hundredths / 100) ++ "." ++ toString (hundredths / 10 % 10) ++ toString (hundredths % 10)

end Duration
end BuildCache
