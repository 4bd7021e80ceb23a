import EchoDelay.Estimator.Process

/-!
# Runs

An estimator is driven by commands: process a frame, or start again. A run lists what each command
leads to, in order, and ends at the first fault.
-/
namespace EchoDelay

inductive Command where
  | frame (frame : Frame)
  | reset
  deriving DecidableEq, Repr

namespace Estimator

def step (e : Estimator) : Command → Except Fault Outcome
  | .frame frame => e.process frame
  | .reset => .ok e.reset.keep

def run (e : Estimator) : List Command → Except Fault (List Outcome)
  | [] => .ok []
  | command :: commands => do
    let outcome ← e.step command
    let outcomes ← outcome.estimator.run commands
    return outcome :: outcomes

/-- The estimator at the end of a run that has these outcomes. -/
def after (e : Estimator) (outcomes : List Outcome) : Estimator :=
  (outcomes.getLast?.map Outcome.estimator).getD e

end Estimator
end EchoDelay
