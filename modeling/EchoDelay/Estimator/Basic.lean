import EchoDelay.Estimator.Thresholds
import EchoDelay.Event
import EchoDelay.History
import EchoDelay.Spectrum.Basic

/-!
# Delay estimators

The state of an estimator: what it has heard of both ends, the distance of every candidate delay on
the latest frame and smoothed over time, the two thresholds, and the delay it reports. A new
estimator has heard silence, and `reset` brings any estimator back to that state.
-/
namespace EchoDelay

structure Estimator where
  dimensions : Dimensions
  /-- The smoothed distance of every candidate. -/
  means : List Q9
  /-- The bit counts of the spectra in `farHistory`. -/
  farBitCounts : History Nat
  /-- The distance of every candidate on the latest frame. -/
  distances : List Nat
  farHistory : History Spectrum
  nearHistory : History Spectrum
  thresholds : Thresholds
  lastDelay : Option Nat
  deriving DecidableEq

namespace Estimator

def initialMean : Q9 := .ofInt 20

/-- An estimator that has heard nothing, with buffers of the given sizes. -/
def silent (dimensions : Dimensions) (historySize nearHistorySize : Nat)
    (hfar : 0 < historySize) (hnear : 0 < nearHistorySize) : Estimator where
  dimensions := dimensions
  means := List.replicate historySize initialMean
  farBitCounts := .filled 0 historySize hfar
  distances := List.replicate historySize 0
  farHistory := .filled 0 historySize hfar
  nearHistory := .filled 0 nearHistorySize hnear
  thresholds := .initial
  lastDelay := none

/-- Overwrites every buffer in place and forgets the delay. -/
def reset (e : Estimator) : Estimator where
  dimensions := e.dimensions
  means := e.means.map fun _ => initialMean
  farBitCounts := e.farBitCounts.fill 0
  distances := e.distances.map fun _ => 0
  farHistory := e.farHistory.fill 0
  nearHistory := e.nearHistory.fill 0
  thresholds := .initial
  lastDelay := none

/-- The reset that ends the making of an estimator finds nothing to overwrite. -/
@[simp] theorem reset_silent (dimensions : Dimensions) (historySize nearHistorySize : Nat)
    (hfar : 0 < historySize) (hnear : 0 < nearHistorySize) :
    (silent dimensions historySize nearHistorySize hfar hnear).reset =
      silent dimensions historySize nearHistorySize hfar hnear := by
  simp [reset, silent]

/-- An estimator whose buffers have the sizes that its dimensions ask for. It is reset before it is
first used. -/
def allocate (dimensions : Dimensions) : Except Failure Estimator := do
  let historySize ← faulting dimensions.historySize
  let nearHistorySize ← faulting dimensions.nearHistorySize
  if h : 0 < historySize ∧ 0 < nearHistorySize then
    faulting (checkedCapacity historySize)
    faulting (checkedCapacity nearHistorySize)
    return (silent dimensions historySize nearHistorySize h.1 h.2).reset
  else .error (.refused (.historyTooShort historySize))

/-- A new estimator. Refused dimensions are reported, a fault is not. -/
def create (dimensions : Dimensions) : Logged (Except Failure Estimator) :=
  match dimensions.validate with
  | .error (.refused cause) => ⟨.error (.refused cause), [.dimensionsRefused dimensions cause]⟩
  | .error (.faulted cause) => ⟨.error (.faulted cause), []⟩
  | .ok () => ⟨allocate dimensions, []⟩

end Estimator
end EchoDelay
