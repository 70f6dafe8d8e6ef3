import Mathlib.Algebra.Group.Int.Defs
import Mathlib.Order.Defs.LinearOrder

/- Instants and durations in nanoseconds. The difference of two instants saturates. -/
namespace AsyncPractice.GoTime

def second : Int := 1000000000

def maxDuration : Int := 2 ^ 63 - 1

def minDuration : Int := - 2 ^ 63

def sub (t u : Int) : Int := max minDuration (min maxDuration (t - u))

variable {duration t u : Int}

/-- Saturation is invisible to a comparison with a duration below the largest. -/
theorem lt_sub_iff (low : minDuration ≤ duration) (high : duration < maxDuration) :
    duration < sub t u ↔ duration < t - u := by
  unfold sub
  omega

theorem sub_le (low : minDuration ≤ duration) (within : t - u ≤ duration) : sub t u ≤ duration := by
  unfold sub
  omega

end AsyncPractice.GoTime
