import EchoDelay.Arithmetic.Checked

/-!
# Dimensions

The dimensions of an estimator are its largest delay and its lookahead, in frames. Together they
give the number of candidate delays, the history size, which has to be at least two. Sizes have
64 bits, and a sum that does not fit is a fault.
-/
namespace EchoDelay

structure Dimensions where
  /-- The largest delay by which the near end lags the far end. -/
  maxDelay : Nat
  /-- The number of near-end frames held back, so that a near end that leads can be matched. -/
  lookahead : Nat
  deriving DecidableEq, Repr

/-- Why dimensions are refused. -/
inductive DimensionError where
  | historyTooShort (historySize : Nat)
  | negativeDimension
  deriving DecidableEq, Repr

def DimensionError.message : DimensionError → String
  | .historyTooShort historySize => s!"history size {historySize} is too short, must be > 1"
  | .negativeDimension => "negative max delay or lookahead"

/-- Why there is no estimator: its dimensions were refused, or a fault occurred. -/
inductive Failure where
  | refused (cause : DimensionError)
  | faulted (cause : Fault)
  deriving DecidableEq, Repr

def Failure.message : Failure → String
  | .refused cause => cause.message
  | .faulted cause => cause.message

/-- A computation that can only fault, among those that can also be refused. -/
def faulting {α : Type} (result : Except Fault α) : Except Failure α :=
  result.mapError .faulted

namespace Dimensions

def standard : Dimensions := ⟨100, 10⟩

/-- The number of candidate delays. -/
def historySize (d : Dimensions) : Except Fault Nat := checkedSize .add (d.maxDelay + d.lookahead)

/-- The near-end frames that are kept: those held back and the current one. -/
def nearHistorySize (d : Dimensions) : Except Fault Nat := checkedSize .add (d.lookahead + 1)

def validate (d : Dimensions) : Except Failure Unit := do
  let historySize ← faulting d.historySize
  if historySize ≤ 1 then .error (.refused (.historyTooShort historySize)) else .ok ()

/-- Dimensions from signed numbers. A negative one is refused before the sum is looked at. -/
def ofSigned (maxDelay lookahead : Int32) : Except Failure Dimensions :=
  if maxDelay < 0 ∨ lookahead < 0 then .error (.refused .negativeDimension) else do
    let dimensions : Dimensions := ⟨maxDelay.toNatClampNeg, lookahead.toNatClampNeg⟩
    dimensions.validate
    return dimensions

def describe (d : Dimensions) : String :=
  s!"DelayEstimatorConfig \x7b max_delay: {d.maxDelay}, lookahead: {d.lookahead} \x7d"

end Dimensions
end EchoDelay
