import EchoDelay.Proofs.Range
import EchoDelay.Spectrum.Delayed
import EchoDelay.Spectrum.Geometric

/-!
# The delay of a delayed stream

The near end of a delayed stream repeats the far end at its offset, whichever way it is shifted.
For offsets within the search window all positions are in range, and an estimator of the same
dimensions compares each spectrum with itself at the expected delay, once both histories reach back
to the start of the stream.
-/
namespace EchoDelay

/-- The mean of a candidate does not rise on a frame on which its far end is the near end. -/
theorem streamMean_succ_le {frames : List Frame} {lookahead i n : Nat}
    (hmatch : farAt frames (n - i) = nearAt frames (n - lookahead)) :
    streamMean frames lookahead i (n + 1) ≤ streamMean frames lookahead i n := by
  have hrange := (streamMean_inRange frames lookahead i n).1
  rw [streamMean_succ, hmatch, UInt32.xor_self, Estimator.bitCount_zero]
  exact (smoothedMean_falls (by omega)).1

namespace DelayedSpectra

open Estimator

variable {s : DelayedSpectra}

/-- The spectrum at a position of the base, empty outside of it. -/
def baseAt (s : DelayedSpectra) (position : Nat) : Spectrum := s.base[position]?.getD 0

/-- The positions of frame `k`, taken as integers. -/
def frame (s : DelayedSpectra) (k : Nat) : Frame where
  far := s.baseAt (s.dimensions.lookahead + k + s.offset).toNat
  near := s.baseAt (s.dimensions.lookahead + k)

theorem spectrumAt_eq {position : Nat} (h : position < s.base.size) :
    s.spectrumAt position = .ok (s.baseAt position) := by
  rw [spectrumAt, baseAt, Array.getElem?_eq_getElem h]
  rfl

/-- A position that is an offset before and after it is moved is moved exactly. -/
theorem frameAt_eq {position moved : Nat} (hmoved : (position : Int) + s.offset = moved)
    (hposition : position < s.base.size) (hmovedSize : moved < s.base.size)
    (hlimit : position < offsetLimit) (hmovedLimit : moved < offsetLimit) :
    s.frameAt position = .ok ⟨s.baseAt moved, s.baseAt position⟩ := by
  have hsize : moved < sizeLimit := by
    rw [offsetLimit] at hmovedLimit
    rw [sizeLimit]
    omega
  rw [frameAt, offsetOfSize_of_lt hlimit, hmoved,
    checkedOffset_of_fits .add (by omega) (by exact_mod_cast hmovedLimit)]
  change s.spectrumAt (sizeOfOffset moved) >>= _ = _
  rw [sizeOfOffset_natCast hsize, spectrumAt_eq hmovedSize, spectrumAt_eq hposition]
  rfl

/-- The results of all positions, whose first fault ends the stream. -/
def results (s : DelayedSpectra) : List (Except Fault Frame) :=
  (List.range frameCount).map fun k => s.frameAt (s.dimensions.lookahead + k)

theorem stream_eq_ofResults (h : s.dimensions.lookahead + frameCount < sizeLimit) :
    s.stream = .ofResults s.results := by
  -- `rw [stream]` would count up to the end of the stream.
  unfold stream
  rw [checkedSize_of_lt .add h]
  rfl

/-- The frames of a stream that does not leave the base. -/
def frames (s : DelayedSpectra) : List Frame := (List.range frameCount).map s.frame

section Window

variable (ha : s.dimensions.Accepted) (hlow : -(s.dimensions.lookahead : Int) ≤ s.offset)
  (hhigh : s.offset < s.dimensions.maxDelay)
include ha hlow hhigh

theorem expectedDelay_eq : ∃ delay : Nat, s.expectedDelay = .ok delay ∧
    (delay : Int) = s.dimensions.lookahead + s.offset ∧ delay < s.dimensions.candidates := by
  have hfar := ha.far_fits
  have hnear := ha.near_fits
  rw [Dimensions.candidates, offsetLimit] at hfar
  rw [offsetLimit] at hnear
  obtain ⟨delay, hdelay⟩ := Int.eq_ofNat_of_zero_le
    (by omega : 0 ≤ s.offset + (s.dimensions.lookahead : Int))
  refine ⟨delay, ?_, by omega, by rw [Dimensions.candidates]; omega⟩
  rw [expectedDelay, offsetOfSize_of_lt (by rw [offsetLimit]; omega), hdelay,
    checkedOffset_of_fits .add (by omega) (by rw [offsetLimit]; omega)]
  change Except.ok (sizeOfOffset delay) = _
  rw [sizeOfOffset_natCast (by rw [sizeLimit]; omega)]

section Base

variable (hbase : frameCount + s.dimensions.candidates ≤ s.base.size)
include hbase

/-- Every position of the stream lies in the base. -/
theorem frameAt_lookahead_add {k : Nat} (hk : k < frameCount) :
    s.frameAt (s.dimensions.lookahead + k) = .ok (s.frame k) := by
  have hcount : frameCount = 1200 := rfl
  have hfar := ha.far_fits
  rw [Dimensions.candidates] at hbase
  rw [Dimensions.candidates, offsetLimit] at hfar
  apply frameAt_eq
  · rw [Int.toNat_of_nonneg] <;> omega
  · omega
  · omega
  · rw [offsetLimit]
    omega
  · rw [offsetLimit]
    omega

theorem stream_eq : s.stream = ⟨s.frames, none⟩ := by
  have hcount : frameCount = 1200 := rfl
  have hnear := ha.near_fits
  rw [offsetLimit] at hnear
  have hend : s.dimensions.lookahead + frameCount < sizeLimit := by
    rw [sizeLimit]
    omega
  have hresults : s.results = s.frames.map .ok := by
    rw [results, frames, List.map_map]
    apply List.map_congr_left
    intro k hk
    exact frameAt_lookahead_add ha hlow hhigh hbase (List.mem_range.mp hk)
  rw [stream_eq_ofResults hend, hresults, Stream.ofResults_map_ok]

end Base

end Window

theorem length_frames : s.frames.length = frameCount := by
  rw [frames, List.length_map, List.length_range]

theorem frames_getElem? {k : Nat} (hk : k < frameCount) : s.frames[k]? = some (s.frame k) :=
  getElem?_map_range _ hk

/-- At the expected delay a spectrum is compared with itself. -/
theorem frames_match {delay k : Nat} (hdelay : (delay : Int) = s.dimensions.lookahead + s.offset)
    (hk : k < frameCount) (hdelayed : delay ≤ k) (hahead : s.dimensions.lookahead ≤ k) :
    farAt s.frames (k - delay) = nearAt s.frames (k - s.dimensions.lookahead) := by
  rw [← Int.natCast_sub hdelayed, ← Int.natCast_sub hahead,
    farAt_of_getElem? (frames_getElem? (by omega)), nearAt_of_getElem? (frames_getElem? (by omega))]
  change s.baseAt _ = s.baseAt _
  congr 1
  omega

/-- From the frame on which both histories reach back to the start of the stream, the expected delay
has distance zero and its mean no longer rises. -/
theorem course_matches {e : Estimator} {outcomes : List Outcome} {delay k : Nat}
    (h : Course s.dimensions e (s.frames.map .frame) outcomes) (he : Started s.dimensions e)
    (hdelay : (delay : Int) = s.dimensions.lookahead + s.offset)
    (hcandidate : delay < s.dimensions.candidates) (hk : k < frameCount)
    (hpast : max s.dimensions.lookahead delay ≤ k) :
    (e.stateAt outcomes (k + 1)).distances[delay]? = some 0 ∧
      ∃ before after, (e.stateAt outcomes k).rawMeans[delay]? = some before ∧
        (e.stateAt outcomes (k + 1)).rawMeans[delay]? = some after ∧ after ≤ before := by
  have hlength : k < s.frames.length := by rwa [length_frames]
  have hbefore := h.follows he (Nat.le_of_lt hlength)
  have hafter := h.follows he hlength
  have hmatch := frames_match hdelay hk (by omega) (by omega)
  constructor
  · have hlast : ((k + 1 : Nat) : Int) - 1 = k := by omega
    rw [hafter.distances_getElem? hcandidate, hlast, hmatch, UInt32.xor_self,
      bitCount_zero]
  · exact ⟨_, _, hbefore.rawMeans_getElem? hcandidate, hafter.rawMeans_getElem? hcandidate,
      streamMean_succ_le hmatch⟩

/-- The expected delay of a delayed stream is the one at which an estimator of the same dimensions
finds the two ends equal. -/
theorem run_stream_matches {e : Estimator} (he : Started s.dimensions e)
    (hlow : -(s.dimensions.lookahead : Int) ≤ s.offset) (hhigh : s.offset < s.dimensions.maxDelay)
    (hbase : 1200 + s.dimensions.maxDelay + s.dimensions.lookahead ≤ s.base.size) :
    ∃ delay outcomes, s.expectedDelay = .ok delay ∧
      (delay : Int) = s.dimensions.lookahead + s.offset ∧
      delay < s.dimensions.maxDelay + s.dimensions.lookahead ∧
      s.stream.stop = none ∧ s.stream.frames.length = 1200 ∧
      e.run (s.stream.frames.map .frame) = .ok outcomes ∧ outcomes.length = 1200 ∧
      ∀ k < 1200, max s.dimensions.lookahead delay ≤ k →
        (e.stateAt outcomes (k + 1)).distances[delay]? = some 0 ∧
        ∃ before after, (e.stateAt outcomes k).means[delay]?.map Q9.raw = some before ∧
          (e.stateAt outcomes (k + 1)).means[delay]?.map Q9.raw = some after ∧
          after ≤ before := by
  obtain ⟨ha, -⟩ := he.eq_fresh
  obtain ⟨delay, hexpected, hdelay, hcandidate⟩ := expectedDelay_eq ha hlow hhigh
  have hlength : s.frames.length = 1200 := by rw [length_frames, frameCount]
  have hstream : s.stream = ⟨s.frames, none⟩ := by
    apply stream_eq ha hlow hhigh
    rw [frameCount, Dimensions.candidates]
    omega
  obtain ⟨outcomes, hrun, hcourse⟩ := he.run_frames s.frames
  simp only [hstream]
  refine ⟨delay, outcomes, hexpected, hdelay, hcandidate, trivial, hlength, hrun, ?_, ?_⟩
  · rw [hcourse.frames_length, hlength]
  · intro k hk hpast
    simp only [← List.getElem?_map]
    exact course_matches hcourse he hdelay hcandidate hk hpast

/-- The near end leads by one frame, and the stream is held back by two. -/
theorem run_stream_matches_leading :
    ∃ (s : DelayedSpectra) (e : Estimator) (delay : Nat) (outcomes : List Outcome),
      s = ⟨⟨3, 2⟩, -1, (Spectrum.geometric 1205).toArray⟩ ∧
      (Estimator.create ⟨3, 2⟩).value = .ok e ∧ s.expectedDelay = .ok delay ∧ delay = 1 ∧
      s.stream.stop = none ∧ s.stream.frames.length = 1200 ∧
      e.run (s.stream.frames.map .frame) = .ok outcomes ∧
      (e.stateAt outcomes 3).distances[delay]? = some 0 := by
  have hsize : (Spectrum.geometric 1205).toArray.size = 1205 := by
    rw [List.size_toArray, Spectrum.geometric, Spectrum.geometricFrom_length]
  obtain ⟨delay, outcomes, hexpected, hdelay, -, hstop, hlength, hrun, -, hmatch⟩ :=
    run_stream_matches (s := ⟨⟨3, 2⟩, -1, (Spectrum.geometric 1205).toArray⟩)
      (started_fresh (d := ⟨3, 2⟩) (by decide)) (by decide) (by decide) hsize.ge
  have hone : delay = 1 := by
    simp only at hdelay
    omega
  refine ⟨_, _, delay, outcomes, rfl, by rw [create_fresh], hexpected, hone, hstop, hlength, hrun,
    ?_⟩
  exact (hmatch 2 (by decide) (by rw [hone]; decide)).1

end DelayedSpectra
end EchoDelay
