import EchoDelay.Arithmetic.Fault

/-!
# Delay tracks

A track is the delay frame by frame. Two tracks are compared at every frame, and this can be done in
one pass over both. One track is searched for the frame from which on it keeps a value.
-/
namespace EchoDelay

structure Comparison where
  firstMismatch : Option Nat
  mismatches : Nat
  total : Nat
  deriving DecidableEq, Repr

namespace Comparison

variable {α : Type} [DecidableEq α]

/-- Compares two tracks, which have to be equally long. -/
def ofTracks (actual expected : List α) : Except Fault Comparison :=
  if actual.length = expected.length then
    let frames := actual.zip expected
    .ok {
      firstMismatch := frames.findIdx? fun frame => frame.1 ≠ frame.2
      mismatches := frames.countP fun frame => frame.1 ≠ frame.2
      total := actual.length }
  else .error (.unequalTracks actual.length expected.length)

/-- No frame has been compared yet. -/
def empty : Comparison := ⟨none, 0, 0⟩

/-- Takes in the next frame of both tracks. A first mismatch that has been found stays. -/
def extend (c : Comparison) (frame : α × α) : Comparison :=
  if frame.1 ≠ frame.2 then
    ⟨c.firstMismatch.or (some c.total), c.mismatches + 1, c.total + 1⟩
  else ⟨c.firstMismatch, c.mismatches, c.total + 1⟩

/-- Compares two tracks in one pass, as far as both reach. -/
def inOnePass (a b : List α) : Comparison := (a.zip b).foldl extend empty

def isIdentical (c : Comparison) : Bool := c.mismatches = 0

def describe (c : Comparison) : String :=
  match c.firstMismatch with
  | some frame => s!"mismatches={c.mismatches}/{c.total} (first at frame {frame})"
  | none => s!"identical ({c.total} frames)"

end Comparison

/-- The frame from which on the track holds `value`, unless its last frame differs. -/
def settledAt {α : Type} [DecidableEq α] (track : List α) (value : α) : Option Nat :=
  if track.getLast? = some value then
    some (track.length - (track.reverse.takeWhile (· = value)).length)
  else none

end EchoDelay
