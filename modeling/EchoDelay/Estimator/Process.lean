import EchoDelay.Estimator.Basic
import EchoDelay.Estimator.Smoothing

/-!
# Processing a frame

The far-end spectrum of a frame enters its history, the near-end spectrum that is due is compared
with the whole of it, and the smoothed distances then say whether the delay that is reported moves
to the candidate that matches best. A candidate may meet two conditions; that each of them reports
it makes no difference to reporting it once.
-/
namespace EchoDelay

/-- What a frame leads to: the estimator after it, the delay it returns and the events. -/
structure Outcome where
  estimator : Estimator
  delay : Option Nat
  events : List Event

namespace Estimator

/-- Takes in both spectra and compares. Without lookahead the near-end spectrum is due at once, and
the near-end history is left alone. -/
def listen (e : Estimator) (frame : Frame) : Except Fault Estimator := do
  let farHistory := e.farHistory.push frame.far
  let farBitCounts := e.farBitCounts.push frame.far.bitCount
  let delayed := 1 < e.nearHistory.size
  let nearHistory := if delayed then e.nearHistory.push frame.near else e.nearHistory
  let due := if delayed then nearHistory.oldest else frame.near
  let distances ← Spectrum.compareRows due farHistory.slots e.distances
  let means ← smoothMeans e.means distances farBitCounts.slots
  return { e with means, farBitCounts, distances, farHistory, nearHistory }

/-- The frame changes nothing more. -/
def keep (e : Estimator) : Outcome := ⟨e, e.lastDelay, []⟩

/-- Reports the candidate as the delay; a change is an event. -/
def report (e : Estimator) (candidate : Nat) : Outcome where
  estimator := { e with lastDelay := some candidate }
  delay := some candidate
  events :=
    if e.lastDelay = some candidate then []
    else [.delayChanged e.lastDelay candidate e.thresholds.minimumProbability]

/-- A candidate of a distinct valley is reported if it is trusted or improves on the last one. -/
def consider (e : Estimator) (candidate : Nat) (mean : Q9) : Outcome :=
  if e.thresholds.trusts mean ∨ e.thresholds.improvedBy mean then
    { e with thresholds := e.thresholds.anchor mean }.report candidate
  else e.keep

/-- The two conditions one after the other, each with a report of its own. The level is anchored
after the second report. -/
def considerInTurn (e : Estimator) (candidate : Nat) (mean : Q9) : Outcome :=
  let first := if e.thresholds.trusts mean then e.report candidate else e.keep
  if first.estimator.thresholds.improvedBy mean then
    let second := first.estimator.report candidate
    { estimator :=
        { second.estimator with thresholds := second.estimator.thresholds.anchor mean }
      delay := second.delay
      events := first.events ++ second.events }
  else first

/-- A candidate that has just been reported is not reported again. -/
theorem report_report (e : Estimator) (candidate : Nat) :
    (e.report candidate).estimator.report candidate =
      ⟨(e.report candidate).estimator, some candidate, []⟩ := by
  simp [report]

/-- An anchored level does not show in the report. -/
theorem report_anchor (e : Estimator) (candidate : Nat) (mean : Q9) :
    { e with thresholds := e.thresholds.anchor mean }.report candidate =
      { estimator := { (e.report candidate).estimator with thresholds := e.thresholds.anchor mean }
        delay := some candidate
        events := (e.report candidate).events } := by
  have hminimum : (e.thresholds.anchor mean).minimumProbability =
      e.thresholds.minimumProbability := by
    rw [Thresholds.anchor]
    split <;> rfl
  simp only [report, hminimum]

/-- So both conditions together report no more than either of them does. -/
theorem considerInTurn_eq (e : Estimator) (candidate : Nat) (mean : Q9) :
    e.considerInTurn candidate mean = e.consider candidate mean := by
  by_cases htrusts : e.thresholds.trusts mean
  · simp only [considerInTurn, if_pos htrusts, report_report, List.append_nil]
    rw [consider, if_pos (Or.inl htrusts), report_anchor]
    by_cases himproved : e.thresholds.improvedBy mean
    · exact if_pos himproved
    · have hanchor : e.thresholds.anchor mean = e.thresholds := if_neg himproved
      rw [hanchor]
      exact if_neg himproved
  · simp only [considerInTurn, if_neg htrusts]
    by_cases himproved : e.thresholds.improvedBy mean
    · rw [consider, if_pos (Or.inr himproved), report_anchor]
      exact if_pos himproved
    · rw [consider, if_neg (not_or.mpr ⟨htrusts, himproved⟩)]
      exact if_neg himproved

/-- Moves the thresholds and decides on the best candidate. -/
def assess (e : Estimator) : Except Fault Outcome := do
  let valley := Valley.ofMeans e.means
  let thresholds ← e.thresholds.lower valley
  let e := { e with thresholds := thresholds.drift }
  match valley.candidate with
  | none => return e.keep
  | some candidate =>
    if ← valley.isDistinct then return e.consider candidate valley.best else return e.keep

def process (e : Estimator) (frame : Frame) : Except Fault Outcome := do
  let e ← e.listen frame
  e.assess

end Estimator
end EchoDelay
