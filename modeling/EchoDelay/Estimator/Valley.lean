import EchoDelay.Arithmetic.Q9

/-!
# Valleys

Smoothed distances over all candidate delays form a landscape. Its lowest point is the candidate
that matches best; how far it lies below the highest point says how far it is to be trusted.
-/
namespace EchoDelay

structure Valley where
  /-- The first candidate with the lowest mean. -/
  candidate : Option Nat
  best : Q9
  worst : Q9
  deriving DecidableEq

namespace Valley

/-- By this much the lowest mean has to lie below the highest before a candidate counts. -/
def margin : Q9 := .ofInt 2

/-- Before any mean is seen: all bits differ at the lowest point, none at the highest. -/
def unseen : Valley := ⟨none, .ofInt 32, .zero⟩

/-- One more mean. Only a strictly lower one takes the place of the candidate. -/
def extend (v : Valley) (mean : Q9) (index : Nat) : Valley where
  candidate := if mean < v.best then some index else v.candidate
  best := if mean < v.best then mean else v.best
  worst := if v.worst < mean then mean else v.worst

def ofMeans (means : List Q9) : Valley :=
  means.zipIdx.foldl (fun v entry => v.extend entry.1 entry.2) unseen

/-- The highest mean exceeds the lowest by more than the margin. -/
def isDistinct (v : Valley) : Except Fault Bool := do
  let bound ← v.best.add margin
  return bound < v.worst

end Valley
end EchoDelay
