import EchoDelay.Estimator.Basic

/-!
# Readings

The delay of an estimator in its two signed forms, and the text of an estimator.
-/
namespace EchoDelay

/-- The code of an unknown delay. -/
def unknownDelay : Int32 := -2

/-- A delay as 32 signed bits, or the code for none. -/
def delayCode : Option Nat → Int32
  | none => unknownDelay
  | some delay => Int32.ofNat delay

namespace Estimator

def lastDelayCode (e : Estimator) : Int32 := delayCode e.lastDelay

/-- The delay without the lookahead, negative where the near end leads. -/
def compensatedDelay (e : Estimator) : Except Fault (Option Int) :=
  match e.lastDelay with
  | none => .ok none
  | some delay => do
    let compensated ←
      checkedOffset .subtract (offsetOfSize delay - offsetOfSize e.dimensions.lookahead)
    return some compensated

def describe (e : Estimator) : String :=
  "BinaryDelayEstimator \x7b config: " ++ e.dimensions.describe
    ++ ", minimum_probability: " ++ e.thresholds.minimumProbability.describe
    ++ ", last_delay_probability: " ++ e.thresholds.lastDelayProbability.describe
    ++ ", last_delay: " ++ describeDelay e.lastDelay ++ ", .. \x7d"

end Estimator
end EchoDelay
