import EchoDelay.Proofs.Acceptance
import EchoDelay.Proofs.Hamming
import EchoDelay.Proofs.Stream

/-!
# The warm-up

No landscape is distinct within the first 13 frames. One near end cannot pull a candidate down at
full speed and push another one up: by the triangle inequality, the closer it is to the far end of
the one, the fewer bins the far end of the other can have while it is far away. The difference of
two means therefore grows by at most 1/128 of the lower one on a frame.
-/
namespace EchoDelay

section Pair

/-! Within 12 frames no mean falls below 9280, as none falls by more than 80 raw steps at once. -/

variable {low high : Int} {lowDistance lowCount highDistance highCount : Nat}

/-- A near end at distance `lowDistance` from a full spectrum raises every other mean by at most
four raw steps for each of these bins. -/
theorem rise_le_of_full (hhigh : 9280 ≤ high) (hcount : highCount ≤ 32)
    (hnear : highCount + highDistance ≤ 32 + lowDistance) :
    128 * (smoothedMean high highDistance highCount - high) ≤ 512 * lowDistance := by
  have hranges : highCount ≤ 5 ∨ 5 < highCount ∧ highCount ≤ 10 ∨
      10 < highCount ∧ highCount ≤ 15 ∨ 15 < highCount := by omega
  rcases hranges with hle | ⟨hgt, hle⟩ | ⟨hgt, hle⟩ | hgt
  · -- the gap is at most 7104 and does not reach the scale
    have h : 8192 * (smoothedMean high highDistance highCount - high) ≤ _ :=
      smoothedMean_rise_le _ _ 5 hle
    omega
  · have h : 4096 * (smoothedMean high highDistance highCount - high) ≤ _ :=
      smoothedMean_rise_le _ _ 10 hle
    omega
  · have h : 2048 * (smoothedMean high highDistance highCount - high) ≤ _ :=
      smoothedMean_rise_le _ _ 15 hle
    omega
  · -- so many bins bring `highDistance` down until the gap itself is small enough
    have h : 128 * (smoothedMean high highDistance highCount - high) ≤ _ :=
      smoothedMean_rise_le _ _ 32 hcount
    omega

variable (hlow : 9280 ≤ low) (hhigh : 9280 ≤ high) (hdistance : highDistance ≤ 32)

section
include hlow hhigh hdistance

/-- Below full speed each of the two moves at half of it at most. -/
theorem widening_le_of_slow (hlowCount : lowCount ≤ 31) (hhighCount : highCount ≤ 31) :
    128 * (low - smoothedMean low lowDistance lowCount +
      (smoothedMean high highDistance highCount - high)) ≤ low := by
  have hfall : 256 * (low - smoothedMean low lowDistance lowCount) ≤ _ :=
    smoothedMean_fall_le _ _ 31 hlowCount
  have hrise : 256 * (smoothedMean high highDistance highCount - high) ≤ _ :=
    smoothedMean_rise_le _ _ 31 hhighCount
  omega

theorem widening_le_of_full_low (hlowCount : lowCount = 32) (hhighCount : highCount ≤ 32)
    (hnear : highCount + highDistance ≤ 32 + lowDistance) :
    128 * (low - smoothedMean low lowDistance lowCount +
      (smoothedMean high highDistance highCount - high)) ≤ low := by
  have hfall : 128 * (low - smoothedMean low lowDistance lowCount) ≤ _ :=
    smoothedMean_fall_le _ _ 32 (Nat.le_of_eq hlowCount)
  have hrise : 128 * (smoothedMean high highDistance highCount - high) ≤ _ :=
    smoothedMean_rise_le _ _ 32 hhighCount
  have hmatched := rise_le_of_full hhigh hhighCount hnear
  omega

theorem widening_le_of_full_high (hlowCount : lowCount ≤ 31) (hhighCount : highCount = 32)
    (hnear : lowCount + highDistance ≤ 32 + lowDistance) :
    128 * (low - smoothedMean low lowDistance lowCount +
      (smoothedMean high highDistance highCount - high)) ≤ low := by
  have hrise : 128 * (smoothedMean high highDistance highCount - high) ≤ _ :=
    smoothedMean_rise_le _ _ 32 (Nat.le_of_eq hhighCount)
  by_cases hslow : lowCount ≤ 21
  · have hfall : 1024 * (low - smoothedMean low lowDistance lowCount) ≤ _ :=
      smoothedMean_fall_le _ _ 21 hslow
    omega
  · have hfall : 256 * (low - smoothedMean low lowDistance lowCount) ≤ _ :=
      smoothedMean_fall_le _ _ 31 hlowCount
    omega

/-- The difference of two means widens by at most 1/128 of the lower one. -/
theorem widening_le (hlowCount : lowCount ≤ 32) (hhighCount : highCount ≤ 32)
    (hnear : lowCount + highCount + highDistance ≤ 64 + lowDistance) :
    128 * (low - smoothedMean low lowDistance lowCount +
      (smoothedMean high highDistance highCount - high)) ≤ low := by
  by_cases hfullLow : lowCount = 32
  · exact widening_le_of_full_low hlow hhigh hdistance hfullLow hhighCount (by omega)
  · by_cases hfullHigh : highCount = 32
    · exact widening_le_of_full_high hlow hhigh hdistance (by omega) hfullHigh (by omega)
    · exact widening_le_of_slow hlow hhigh hdistance (by omega) (by omega)

end
end Pair

/-- Two means are at most this far apart after `k` frames: on each they widen by 1/128 of the lower
one, and the higher one has risen by at most 48 raw steps a frame. -/
def widest : Nat → Int
  | 0 => 0
  | k + 1 => (127 * widest k + (10240 + 48 * k)) / 128

theorem widest_le : ∀ k ≤ 13, widest k ≤ 1024 := by decide

namespace Estimator

/-- The means after `k` frames of a warm-up. -/
structure Warming (k : Nat) (e : Estimator) : Prop where
  means_ge : ∀ v ∈ e.rawMeans, 10240 - 80 * (k : Int) ≤ v
  means_le : ∀ v ∈ e.rawMeans, v ≤ 10240 + 48 * (k : Int)
  apart_le : ∀ v ∈ e.rawMeans, ∀ w ∈ e.rawMeans, w - v ≤ widest k

variable {d : Dimensions} {e : Estimator}

theorem warming_fresh (ha : d.Accepted) : Warming 0 (fresh d ha) := by
  have hmeans : ∀ v ∈ (fresh d ha).rawMeans, v = 10240 := by
    rw [rawMeans_fresh]
    exact fun v hv => List.eq_of_mem_replicate hv
  refine ⟨?_, ?_, ?_⟩
  · intro v hv
    rw [hmeans v hv]
    decide
  · intro v hv
    rw [hmeans v hv]
    decide
  · intro v hv w hw
    rw [hmeans v hv, hmeans w hw]
    decide

section Step

variable {frame : Frame} {o : Outcome} {k : Nat}

theorem Warming.processed (h : Warming k e) (hk : k < 13) (hs : Sound d e)
    (hp : Processed e frame o) (hafter : Sound d o.estimator) : Warming (k + 1) o.estimator := by
  refine ⟨?_, ?_, ?_⟩
  · intro v hv
    obtain ⟨before, hbefore, far, rfl⟩ := hs.mean_due hp.toHeard hafter hv
    have hge := h.means_ge before hbefore
    have hfall : 128 * (before - smoothedMean before ((e.due frame).distance far) far.bitCount) ≤ _ :=
      smoothedMean_fall_le _ _ 32 far.bitCount_le
    omega
  · intro v hv
    obtain ⟨before, hbefore, far, rfl⟩ := hs.mean_due hp.toHeard hafter hv
    have hle := h.means_le before hbefore
    have hdistance : (e.due frame).distance far ≤ 32 := Spectrum.bitCount_le _
    have hrise : 128 * (smoothedMean before ((e.due frame).distance far) far.bitCount - before) ≤ _ :=
      smoothedMean_rise_le _ _ 32 far.bitCount_le
    omega
  · intro v hv w hw
    obtain ⟨low, hlow, far, rfl⟩ := hs.mean_due hp.toHeard hafter hv
    obtain ⟨high, hhigh, far', rfl⟩ := hs.mean_due hp.toHeard hafter hw
    have hlowGe := h.means_ge low hlow
    have hhighGe := h.means_ge high hhigh
    have hhighLe := h.means_le high hhigh
    have hapart := h.apart_le low hlow high hhigh
    have hdistance : (e.due frame).distance far' ≤ 32 := Spectrum.bitCount_le _
    have hlowFloor : 9280 ≤ low := by omega
    have hhighFloor : 9280 ≤ high := by omega
    have hwidening := widening_le hlowFloor hhighFloor hdistance far.bitCount_le far'.bitCount_le
      (Spectrum.bitCount_add_bitCount_add_distance_le (e.due frame) far far')
    rw [widest]
    omega

end Step

namespace Course

variable {frames : List Frame} {outcomes : List Outcome}

theorem warming (h : Course d e (frames.map .frame) outcomes) (he : Started d e) {k : Nat}
    (hk : k ≤ 13) (hlength : k ≤ frames.length) : Warming k (e.stateAt outcomes k) := by
  induction k with
  | zero =>
    obtain ⟨ha, rfl⟩ := he.eq_fresh
    exact warming_fresh ha
  | succ k ih =>
    obtain ⟨o, -, hprocessed, hstate⟩ := h.processed_at hlength
    have hafter := h.frame_sound hlength
    rw [hstate] at hafter ⊢
    exact (ih (by omega) (by omega)).processed hk (h.frame_sound (by omega)) hprocessed hafter

theorem not_valleyAt_warmUp (h : Course d e (frames.map .frame) outcomes) (he : Started d e)
    {k : Nat} (hk : k ≤ 13) (hlength : k ≤ frames.length) : ¬ ValleyAt e outcomes k := by
  rintro ⟨-, hdistinct⟩
  obtain ⟨ha, -⟩ := he.eq_fresh
  have hne := (h.frame_sound hlength).rawMeans_ne_nil ha
  have hapart := (h.warming he hk hlength).apart_le _ (lowest_mem hne) _ (highest_mem hne)
  have hwidest := widest_le k hk
  rw [Distinct] at hdistinct
  omega

theorem lastDelay_warmUp (h : Course d e (frames.map .frame) outcomes) (he : Started d e)
    {k : Nat} (hk : k ≤ 13) (hlength : k ≤ frames.length) :
    (e.stateAt outcomes k).lastDelay = none := by
  rw [h.lastDelay_eq_none_iff he hlength]
  intro j hj
  exact h.not_valleyAt_warmUp he (by omega) (by omega)

end Course

/-- A far end that the near end repeats at once, in every bin. -/
def matching : List Frame := List.replicate 14 ⟨0xFFFFFFFF, 0xFFFFFFFF⟩

theorem streamMean_matching_zero : streamMean matching 0 0 14 = 9181 := by decide +kernel

/-- Candidates that met their first far end later have fallen less, or not at all. -/
theorem streamMean_matching_gt {i : Nat} (hi : i ≠ 0) : 9181 < streamMean matching 0 i 14 := by
  by_cases hlate : 14 ≤ i
  · rw [streamMean_of_silent (fun k hk => farAt_of_neg (by omega))]
    decide
  · have hearly : ∀ i < 14, i ≠ 0 → 9181 < streamMean matching 0 i 14 := by decide +kernel
    exact hearly i (by omega) hi

/-- After 14 matching frames candidate 0 has fallen by more than 2.0, and candidate 14 has met no
far end. -/
theorem Follows.leader_matching (h : Follows d matching 14 e) (hzero : d.lookahead = 0)
    (hcandidates : 15 ≤ d.candidates) : e.Distinct ∧ e.leader = 0 := by
  have hmean : ∀ i < d.candidates, e.rawMeans[i]? = some (streamMean matching 0 i 14) := by
    intro i hi
    rw [h.rawMeans_getElem? hi, hzero]
  have hfirst := hmean 0 (by omega)
  have hlast := hmean 14 (by omega)
  rw [streamMean_matching_zero] at hfirst
  rw [streamMean_of_silent (fun k hk => farAt_of_neg (by omega))] at hlast
  have habove : ∀ i w, i ≠ 0 → e.rawMeans[i]? = some w → 9181 < w := by
    intro i w hi hw
    by_cases hlt : i < d.candidates
    · obtain rfl := Option.some.inj ((hmean i hlt).symm.trans hw)
      exact streamMean_matching_gt hi
    · rw [h.rawMeans_eq, List.getElem?_eq_none (by simpa using hlt)] at hw
      cases hw
  obtain ⟨hlowest, hleader⟩ := leader_eq hfirst habove
  have hhighest := le_highest (List.mem_of_getElem? hlast)
  refine ⟨?_, hleader⟩
  rw [Distinct]
  omega

theorem Course.delay_matching {outcomes : List Outcome}
    (h : Course d e (matching.map .frame) outcomes) (he : Started d e) (hzero : d.lookahead = 0)
    (hcandidates : 15 ≤ d.candidates) : outcomes[13]?.map Outcome.delay = some (some 0) := by
  have hlength : 13 < matching.length := by decide
  obtain ⟨hdistinct, hleader⟩ := (h.follows he hlength).leader_matching hzero hcandidates
  have hvalley : ValleyAt e outcomes 14 := ⟨by decide, hdistinct⟩
  have hfirst : ∀ j < 14, ¬ ValleyAt e outcomes j := fun j hj =>
    h.not_valleyAt_warmUp he (by omega) (by omega)
  have hdelay := (h.lastDelay_succ he hlength).1 (acceptedAt_of_first hvalley hfirst)
  obtain ⟨o, ho, hprocessed, hstate⟩ := h.processed_at hlength
  rw [hleader, hstate, ← hprocessed.delay_eq] at hdelay
  rw [ho, Option.map_some, hdelay]

/-- No delay is reported on the first 13 frames after a start, since the means are at most 2.0
apart, and a full match may be reported on the next one. -/
theorem run_warmUp (he : Started d e) :
    (∀ frames : List Frame, ∃ outcomes, e.run (frames.map .frame) = .ok outcomes ∧
      outcomes.length = frames.length ∧
      ∀ o ∈ outcomes.take 13, o.delay = none ∧
        ∀ v ∈ o.estimator.means, ∀ w ∈ o.estimator.means, w.raw - v.raw ≤ 1024) ∧
    (d.lookahead = 0 → 15 ≤ d.maxDelay → ∃ outcomes,
      e.run (List.replicate 14 (.frame ⟨0xFFFFFFFF, 0xFFFFFFFF⟩)) = .ok outcomes ∧
      outcomes[13]?.map Outcome.delay = some (some 0)) := by
  constructor
  · intro frames
    obtain ⟨outcomes, hrun, hcourse⟩ := he.run_frames frames
    refine ⟨outcomes, hrun, hcourse.frames_length, ?_⟩
    intro o ho
    obtain ⟨k, hlt, hk, -, hprocessed, hstate⟩ := hcourse.processed_of_mem_take ho
    constructor
    · rw [hprocessed.delay_eq, ← hstate]
      exact hcourse.lastDelay_warmUp he hlt hk
    · intro v hv w hw
      have hapart := (hcourse.warming he hlt hk).apart_le v.raw
        (hstate ▸ List.mem_map_of_mem hv) w.raw (hstate ▸ List.mem_map_of_mem hw)
      exact hapart.trans (widest_le (k + 1) hlt)
  · intro hzero hmaxDelay
    obtain ⟨outcomes, hrun, hcourse⟩ := he.run_frames matching
    rw [matching, List.map_replicate] at hrun
    exact ⟨outcomes, hrun, hcourse.delay_matching he hzero (by rw [Dimensions.candidates]; omega)⟩

/-- The 14th frame is the first that can report a delay, and it does. -/
theorem run_warmUp_matching :
    ∃ e outcomes, Started ⟨15, 0⟩ e ∧
      e.run (List.replicate 14 (.frame ⟨0xFFFFFFFF, 0xFFFFFFFF⟩)) = .ok outcomes ∧
      (∀ o ∈ outcomes.take 13, o.delay = none) ∧
      outcomes[13]?.map Outcome.delay = some (some 0) := by
  have he := started_fresh (d := ⟨15, 0⟩) (by decide)
  obtain ⟨hnone, hfirst⟩ := run_warmUp he
  obtain ⟨outcomes, hrun, -, hwarmUp⟩ := hnone matching
  obtain ⟨outcomes', hrun', hdelay⟩ := hfirst rfl (by decide)
  rw [matching, List.map_replicate] at hrun
  obtain rfl := Except.ok.inj (hrun.symm.trans hrun')
  exact ⟨_, outcomes, he, hrun, fun o ho => (hwarmUp o ho).1, hdelay⟩

end Estimator
end EchoDelay
