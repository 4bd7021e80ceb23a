import EchoDelay.Arithmetic.Q9

/-!
# Smoothing

Each candidate has a running mean of its distance. The more bits the far-end spectrum has, the
larger the steps; an empty far-end spectrum says nothing about an echo and leaves the mean alone.
-/
namespace EchoDelay

/-- Thirteen places at an empty far end, three sixteenths of a place less for each of its bits. -/
def smoothingShift (farBitCount : Nat) : Except Fault Nat := do
  let slope ← checkedWord .multiply (3 * farBitCount)
  checkedDifference 13 (slope >>> 4)

def smoothMean (mean : Q9) (distance farBitCount : Nat) : Except Fault Q9 :=
  if farBitCount = 0 then .ok mean else do
    let shifts ← smoothingShift farBitCount
    mean.smoothToward (.ofInt distance) shifts

/-- The means of all candidates; one without a distance or a far-end count keeps its mean. -/
def smoothMeans : List Q9 → List Nat → List Nat → Except Fault (List Q9)
  | mean :: means, distance :: distances, farBitCount :: farBitCounts => do
    let first ← smoothMean mean distance farBitCount
    let rest ← smoothMeans means distances farBitCounts
    return first :: rest
  | means, _, _ => .ok means

end EchoDelay
