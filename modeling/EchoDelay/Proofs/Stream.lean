import EchoDelay.Proofs.Hamming
import EchoDelay.Proofs.Run

/-!
# Buffers read off the streams

After some frames every buffer of an estimator is a function of the two streams alone: slot `i` of
the far-end history is the far end `i` frames ago, the near end that is due is the one `lookahead`
frames ago, and each mean is a fold over all pairs of the two that its candidate has met.
-/
namespace EchoDelay

/-- The far end of frame `k`, silent before the first frame. -/
def farAt (frames : List Frame) (k : Int) : Spectrum :=
  if k < 0 then 0 else (frames[k.toNat]?.map Frame.far).getD 0

/-- The near end of frame `k`, silent before the first frame. -/
def nearAt (frames : List Frame) (k : Int) : Spectrum :=
  if k < 0 then 0 else (frames[k.toNat]?.map Frame.near).getD 0

/-- The raw mean of candidate `i` after `n` frames, from the streams. -/
def streamMean (frames : List Frame) (lookahead i n : Nat) : Int :=
  (List.range n).foldl
    (fun mean (k : Nat) =>
      let far := farAt frames (k - i)
      let near := nearAt frames (k - lookahead)
      if far = 0 then mean
      else mean +
        (512 * (far ^^^ near).bitCount - mean).tdiv (2 ^ (13 - 3 * far.bitCount / 16)))
    10240

theorem farAt_of_getElem? {frames : List Frame} {k : Nat} {frame : Frame}
    (h : frames[k]? = some frame) : farAt frames k = frame.far := by
  rw [farAt, if_neg (by omega), Int.toNat_natCast, h]
  rfl

theorem nearAt_of_getElem? {frames : List Frame} {k : Nat} {frame : Frame}
    (h : frames[k]? = some frame) : nearAt frames k = frame.near := by
  rw [nearAt, if_neg (by omega), Int.toNat_natCast, h]
  rfl

@[simp] theorem farAt_of_neg {frames : List Frame} {k : Int} (h : k < 0) : farAt frames k = 0 :=
  if_pos h

@[simp] theorem nearAt_of_neg {frames : List Frame} {k : Int} (h : k < 0) : nearAt frames k = 0 :=
  if_pos h

theorem streamMean_succ (frames : List Frame) (lookahead i n : Nat) :
    streamMean frames lookahead i (n + 1) =
      smoothedMean (streamMean frames lookahead i n)
        (farAt frames (n - i) ^^^ nearAt frames (n - lookahead)).bitCount
        (farAt frames (n - i)).bitCount := by
  rw [streamMean, List.range_succ, List.foldl_append, smoothedMean]
  exact if_congr (Spectrum.bitCount_eq_zero_iff _).symm rfl rfl

/-- A candidate that has met no far end keeps its initial mean. -/
theorem streamMean_of_silent {frames : List Frame} {i n : Nat}
    (h : ∀ k < n, farAt frames (k - i) = 0) (lookahead : Nat) :
    streamMean frames lookahead i n = 10240 := by
  induction n with
  | zero => rfl
  | succ n ih =>
    rw [streamMean_succ, h n (Nat.lt_succ_self n), (Spectrum.bitCount_eq_zero_iff 0).mpr rfl,
      smoothedMean_empty]
    exact ih fun k hk => h k (Nat.lt_succ_of_lt hk)

namespace Estimator

/-- The buffers after `k` frames of the streams. -/
structure Follows (d : Dimensions) (frames : List Frame) (k : Nat) (e : Estimator) : Prop where
  farHistory_eq : e.farHistory.slots =
    (List.range d.candidates).map fun i : Nat => farAt frames (k - 1 - i)
  nearHistory_eq : 0 < d.lookahead → e.nearHistory.slots =
    (List.range (d.lookahead + 1)).map fun i : Nat => nearAt frames (k - 1 - i)
  distances_eq : e.distances = (List.range d.candidates).map fun i : Nat =>
    (farAt frames (k - 1 - i) ^^^ nearAt frames (k - 1 - d.lookahead)).bitCount
  rawMeans_eq : e.rawMeans =
    (List.range d.candidates).map fun i => streamMean frames d.lookahead i k

variable {d : Dimensions} {e : Estimator} {frames : List Frame}

theorem follows_fresh (ha : d.Accepted) (frames : List Frame) :
    Follows d frames 0 (fresh d ha) where
  farHistory_eq := by
    rw [fresh, silent, History.slots_filled]
    exact replicate_eq_map_range _ fun i => farAt_of_neg (by omega)
  nearHistory_eq := by
    intro _
    rw [fresh, silent, History.slots_filled]
    exact replicate_eq_map_range _ fun i => nearAt_of_neg (by omega)
  distances_eq := by
    apply replicate_eq_map_range
    intro i
    rw [farAt_of_neg (by omega), nearAt_of_neg (by omega)]
    decide
  rawMeans_eq := by
    rw [rawMeans_fresh]
    exact replicate_eq_map_range _ fun i => rfl

namespace Follows

variable {k : Nat} {frame : Frame}

theorem farHistory_push (h : Follows d frames k e) (hframe : frames[k]? = some frame) :
    (e.farHistory.push frame.far).slots =
      (List.range d.candidates).map fun i : Nat => farAt frames ((k + 1 : Nat) - 1 - i) := by
  apply History.slots_push_ages h.farHistory_eq
  · rw [← farAt_of_getElem? hframe]
    congr 1
    omega
  · intro i
    congr 1
    omega

theorem nearHistory_push (h : Follows d frames k e) (hframe : frames[k]? = some frame)
    (hpos : 0 < d.lookahead) : (e.nearHistory.push frame.near).slots =
      (List.range (d.lookahead + 1)).map fun i : Nat => nearAt frames ((k + 1 : Nat) - 1 - i) := by
  apply History.slots_push_ages (h.nearHistory_eq hpos)
  · rw [← nearAt_of_getElem? hframe]
    congr 1
    omega
  · intro i
    congr 1
    omega

/-- With or without a lookahead, the near end that is due is `lookahead` frames old. -/
theorem due_eq (h : Follows d frames k e) (hs : Sound d e) (hframe : frames[k]? = some frame) :
    e.due frame = nearAt frames (k - d.lookahead) := by
  rw [due, hs.nearHistory_size]
  by_cases hpos : 0 < d.lookahead
  · rw [if_pos (by omega)]
    have hlast : some (e.nearHistory.push frame.near).oldest =
        some (nearAt frames ((k + 1 : Nat) - 1 - d.lookahead)) := by
      rw [← History.getLast?_slots, h.nearHistory_push hframe hpos, List.range_succ,
        List.map_append]
      exact List.getLast?_concat
    rw [Option.some.inj hlast]
    congr 1
    omega
  · rw [if_neg (by omega), ← nearAt_of_getElem? hframe]
    congr 1
    omega

theorem heard {after : Estimator} (h : Follows d frames k e) (hs : Sound d e)
    (hframe : frames[k]? = some frame) (hh : Heard e frame after) :
    Follows d frames (k + 1) after := by
  have hfar : after.farHistory.slots =
      (List.range d.candidates).map fun i : Nat => farAt frames ((k + 1 : Nat) - 1 - i) := by
    rw [hh.farHistory_eq, h.farHistory_push hframe]
  have hdistances : after.distances = (List.range d.candidates).map fun i : Nat =>
      (farAt frames ((k + 1 : Nat) - 1 - i) ^^^
        nearAt frames ((k + 1 : Nat) - 1 - d.lookahead)).bitCount := by
    have hdue : e.due frame = nearAt frames ((k + 1 : Nat) - 1 - d.lookahead) := by
      rw [h.due_eq hs hframe]
      congr 1
      omega
    rw [hh.distances_eq, hfar, hdue, List.map_map]
    apply List.map_congr_left
    intro i _
    rw [Function.comp_apply, Spectrum.distance, UInt32.xor_comm]
  refine ⟨hfar, ?_, hdistances, ?_⟩
  · intro hpos
    rw [hh.nearHistory_eq, hs.nearHistory_size, if_pos (by omega), h.nearHistory_push hframe hpos]
  · have hcounts : after.farBitCounts.slots = (List.range d.candidates).map fun i : Nat =>
        (farAt frames ((k + 1 : Nat) - 1 - i)).bitCount := by
      rw [hh.farBitCounts_eq, hs.farBitCounts_push, h.farHistory_push hframe, List.map_map]
      rfl
    apply List.ext_getElem?
    intro i
    by_cases hi : i < d.candidates
    · rw [hh.rawMeans_eq, smoothedMeans_getElem?
        (by rw [h.rawMeans_eq, getElem?_map_range _ hi])
        (by rw [hdistances, getElem?_map_range _ hi])
        (by rw [hcounts, getElem?_map_range _ hi])]
      rw [getElem?_map_range _ hi, streamMean_succ]
      have hk : ((k + 1 : Nat) : Int) - 1 = k := by omega
      rw [hk]
    · have hlength : after.rawMeans.length = d.candidates := by
        rw [hh.rawMeans_eq, smoothedMeans_length, hs.rawMeans_length]
      rw [List.getElem?_eq_none (by omega), List.getElem?_eq_none (by simp; omega)]

theorem farHistory_getElem? (h : Follows d frames k e) {i : Nat} (hi : i < d.candidates) :
    e.farHistory.slots[i]? = some (farAt frames (k - 1 - i)) := by
  rw [h.farHistory_eq, getElem?_map_range _ hi]

theorem distances_getElem? (h : Follows d frames k e) {i : Nat} (hi : i < d.candidates) :
    e.distances[i]? = some
      (farAt frames (k - 1 - i) ^^^ nearAt frames (k - 1 - d.lookahead)).bitCount := by
  rw [h.distances_eq, getElem?_map_range _ hi]

theorem rawMeans_getElem? (h : Follows d frames k e) {i : Nat} (hi : i < d.candidates) :
    e.rawMeans[i]? = some (streamMean frames d.lookahead i k) := by
  rw [h.rawMeans_eq, getElem?_map_range _ hi]

end Follows

/-- Every state of a course of frames from a start is read off the streams. -/
theorem Course.follows {outcomes : List Outcome} (h : Course d e (frames.map .frame) outcomes)
    (he : Started d e) {k : Nat} (hk : k ≤ frames.length) :
    Follows d frames k (e.stateAt outcomes k) := by
  induction k with
  | zero =>
    obtain ⟨ha, rfl⟩ := he.eq_fresh
    exact follows_fresh ha frames
  | succ k ih =>
    obtain ⟨o, -, hprocessed, hstate⟩ := h.processed_at hk
    rw [hstate]
    exact (ih (by omega)).heard (h.frame_sound (by omega)) (List.getElem?_eq_getElem hk)
      hprocessed.toHeard

theorem Course.follows_after {outcomes : List Outcome}
    (h : Course d e (frames.map .frame) outcomes) (he : Started d e) :
    Follows d frames frames.length (e.after outcomes) := by
  rw [← stateAt_length, h.frames_length]
  exact h.follows he (Nat.le_refl _)

/-- The buffers after any number of frames are these functions of the streams. -/
theorem run_eq_streams (he : Started d e) (frames : List Frame) :
    ∃ outcomes, e.run (frames.map .frame) = .ok outcomes ∧
      outcomes.length = frames.length ∧
      ∀ i < d.maxDelay + d.lookahead,
        (e.after outcomes).farHistory.slots[i]? = some (farAt frames (frames.length - 1 - i)) ∧
        (e.after outcomes).farBitCounts.slots[i]? =
          some (farAt frames (frames.length - 1 - i)).bitCount ∧
        (e.after outcomes).distances[i]? =
          some (farAt frames (frames.length - 1 - i) ^^^
            nearAt frames (frames.length - 1 - d.lookahead)).bitCount ∧
        (e.after outcomes).means[i]?.map Q9.raw =
          some (streamMean frames d.lookahead i frames.length) := by
  obtain ⟨outcomes, hrun, hcourse⟩ := he.run_frames frames
  have hsound := hcourse.sound_after
  have hfollows := hcourse.follows_after he
  refine ⟨outcomes, hrun, hcourse.frames_length, ?_⟩
  intro i hi
  refine ⟨hfollows.farHistory_getElem? hi, ?_, hfollows.distances_getElem? hi, ?_⟩
  · rw [hsound.farBitCounts_eq, List.getElem?_map, hfollows.farHistory_getElem? hi,
      Option.map_some]
  · rw [← List.getElem?_map]
    exact hfollows.rawMeans_getElem? hi

/-- Candidate 1 has met two pairs, and each has moved its mean by one raw step. -/
theorem run_eq_streams_three_frames :
    ∃ e outcomes, Started ⟨2, 1⟩ e ∧
      e.run ([⟨5, 1⟩, ⟨6, 2⟩, ⟨7, 3⟩].map .frame) = .ok outcomes ∧
      (e.after outcomes).farHistory.slots[1]? = some 6 ∧
      (e.after outcomes).distances[1]? = some 1 ∧
      (e.after outcomes).means[1]?.map Q9.raw = some 10238 := by
  have he := started_fresh (d := ⟨2, 1⟩) (by decide)
  obtain ⟨outcomes, hrun, -, h⟩ := run_eq_streams he [⟨5, 1⟩, ⟨6, 2⟩, ⟨7, 3⟩]
  obtain ⟨hfar, -, hdistance, hmean⟩ := h 1 (by decide)
  exact ⟨_, outcomes, he, hrun, hfar.trans (by decide), hdistance.trans (by decide),
    hmean.trans (by decide)⟩

end Estimator
end EchoDelay
