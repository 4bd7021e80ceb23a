import EchoDelay.Dimensions
import EchoDelay.Spectrum.Basic

/-!
# Delayed streams

A test stream in which the near end repeats the far end at a fixed offset, both cut out of one list
of spectra. Positions are sizes and the offset is signed, so a position is read as an offset, moved,
and read as a size again; a position outside the list ends the stream with a fault.
-/
namespace EchoDelay

structure DelayedSpectra where
  dimensions : Dimensions
  /-- The far end at a frame is the spectrum this many places after that of the near end. -/
  offset : Int
  base : Array Spectrum

namespace DelayedSpectra

/-- The number of frames of a whole stream. -/
def frameCount : Nat := 1200

/-- The spectrum at a position. -/
def spectrumAt (s : DelayedSpectra) (position : Nat) : Except Fault Spectrum :=
  match s.base[position]? with
  | some spectrum => .ok spectrum
  | none => .error (.outOfBounds s.base.size position)

/-- The frame whose near end is at a position. The far end is looked up first. -/
def frameAt (s : DelayedSpectra) (position : Nat) : Except Fault Frame := do
  let moved ← checkedOffset .add (offsetOfSize position + s.offset)
  let far ← s.spectrumAt (sizeOfOffset moved)
  let near ← s.spectrumAt position
  return ⟨far, near⟩

/-- A stream of frames and the fault that cut it short, if one did. -/
structure Stream where
  frames : List Frame
  stop : Option Fault

/-- The frames before the first fault. -/
def Stream.ofResults : List (Except Fault Frame) → Stream
  | [] => ⟨[], none⟩
  | .error fault :: _ => ⟨[], some fault⟩
  | .ok frame :: results =>
    let rest := ofResults results
    ⟨frame :: rest.frames, rest.stop⟩

theorem Stream.ofResults_map_ok (frames : List Frame) :
    ofResults (frames.map .ok) = ⟨frames, none⟩ := by
  induction frames with
  | nil => rfl
  | cons frame frames ih => rw [List.map_cons, ofResults, ih]

/-- The near end starts after the lookahead. -/
def stream (s : DelayedSpectra) : Stream :=
  match checkedSize .add (s.dimensions.lookahead + frameCount) with
  | .error fault => ⟨[], some fault⟩
  | .ok _ =>
    .ofResults ((List.range frameCount).map fun k => s.frameAt (s.dimensions.lookahead + k))

/-- The delay that an estimator of the same dimensions should report. -/
def expectedDelay (s : DelayedSpectra) : Except Fault Nat := do
  let delay ← checkedOffset .add (s.offset + offsetOfSize s.dimensions.lookahead)
  return sizeOfOffset delay

end DelayedSpectra
end EchoDelay
