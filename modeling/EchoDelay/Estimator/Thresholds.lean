import EchoDelay.Estimator.Valley

/-!
# Acceptance thresholds

A candidate is accepted if its mean is below one of two thresholds. The minimum probability only
falls, as wide valleys are seen. The last delay probability is the mean at which a candidate was
accepted last; it drifts upwards by the smallest step on every frame, so that old evidence yields.
-/
namespace EchoDelay

structure Thresholds where
  minimumProbability : Q9
  lastDelayProbability : Q9
  deriving DecidableEq

namespace Thresholds

def initial : Thresholds := ⟨.ofInt 32, .ofInt 32⟩

/-- The minimum probability does not fall below this. -/
def lowerLimit : Q9 := .ofInt 17

/-- A valley of at most this depth, 5.5, leaves the minimum probability as it is. -/
def minimumSpread : Q9 := .wrap 2816

/-- A wide valley pulls the minimum probability down to a margin above its lowest point. -/
def lower (t : Thresholds) (v : Valley) : Except Fault Thresholds :=
  if t.minimumProbability ≤ lowerLimit then .ok t else do
    let spread ← v.worst.sub v.best
    if spread ≤ minimumSpread then return t else
      let bound ← v.best.add Valley.margin
      return { t with minimumProbability := min t.minimumProbability (max bound lowerLimit) }

def drift (t : Thresholds) : Thresholds :=
  { t with lastDelayProbability := t.lastDelayProbability.saturatingAdd .epsilon }

/-- The mean is low enough in itself. -/
def trusts (t : Thresholds) (mean : Q9) : Bool := mean < t.minimumProbability

/-- The mean is lower than that of the candidate accepted last, as far as it still counts. -/
def improvedBy (t : Thresholds) (mean : Q9) : Bool := mean < t.lastDelayProbability

/-- An improvement becomes the level that later candidates have to beat; a mean that is only
trusted does not. -/
def anchor (t : Thresholds) (mean : Q9) : Thresholds :=
  if t.improvedBy mean then { t with lastDelayProbability := mean } else t

end Thresholds
end EchoDelay
