import EchoDelay.Proofs.Stream
import EchoDelay.Proofs.Thresholds

/-!
# A wider search window

Of two estimators with the same lookahead, the one with the larger maximum delay has all candidates
of the other and some more. On the same frames its landscape reaches at least as low and at least as
high, so it has every valley of the other one: its thresholds are never higher, and it knows a delay
whenever the other one does.
-/
namespace EchoDelay

theorem range_isPrefix {m n : Nat} (h : m ≤ n) : List.range m <+: List.range n := by
  rw [List.prefix_iff_eq_take, List.take_range, List.length_range, Nat.min_eq_left h]

namespace Estimator

/-- On each of the first `n` frames the landscape of the first run encloses that of the second. -/
def Encloses (wide : Estimator) (wideOutcomes : List Outcome) (e : Estimator)
    (outcomes : List Outcome) (n : Nat) : Prop :=
  ∀ k ≤ n, (wide.stateAt wideOutcomes k).lowest ≤ (e.stateAt outcomes k).lowest ∧
    (e.stateAt outcomes k).highest ≤ (wide.stateAt wideOutcomes k).highest

section Enclosing

variable {wide e : Estimator} {wideOutcomes outcomes : List Outcome} {n k : Nat}

theorem ValleyAt.enclosed (h : Encloses wide wideOutcomes e outcomes n) (hk : k ≤ n)
    (hvalley : ValleyAt e outcomes k) : ValleyAt wide wideOutcomes k := by
  rcases hvalley with ⟨hpos, hdistinct⟩
  have hextremes := h k hk
  refine ⟨hpos, ?_⟩
  rw [Distinct] at hdistinct ⊢
  omega

theorem WideAt.enclosed (h : Encloses wide wideOutcomes e outcomes n) (hk : k ≤ n)
    (hwide : WideAt e outcomes k) : WideAt wide wideOutcomes k := by
  rcases hwide with ⟨hpos, hspread⟩
  have hextremes := h k hk
  exact ⟨hpos, by omega⟩

theorem Encloses.leastBound_le (h : Encloses wide wideOutcomes e outcomes n) :
    leastBound wide wideOutcomes n ≤ leastBound e outcomes n := by
  apply fold_min_filter_le le_rfl fun k hk hwide => hwide.enclosed h hk
  intro k hk
  have hextremes := h k hk
  omega

theorem Encloses.leastLevel_le (h : Encloses wide wideOutcomes e outcomes n) :
    leastLevel wide wideOutcomes n ≤ leastLevel e outcomes n := by
  apply fold_min_filter_le le_rfl fun k hk hvalley => hvalley.enclosed h hk
  intro k hk
  have hextremes := h k hk
  omega

end Enclosing

variable {maxDelay wideDelay lookahead : Nat} {e wide : Estimator} {frames : List Frame} {k : Nat}

section Streams

variable (h : Follows ⟨maxDelay, lookahead⟩ frames k e)
  (hwide : Follows ⟨wideDelay, lookahead⟩ frames k wide) (hle : maxDelay ≤ wideDelay)
include h hwide hle

theorem Follows.distances_isPrefix : e.distances <+: wide.distances := by
  rw [h.distances_eq, hwide.distances_eq]
  exact (range_isPrefix (Nat.add_le_add_right hle lookahead)).map _

theorem Follows.rawMeans_isPrefix : e.rawMeans <+: wide.rawMeans := by
  rw [h.rawMeans_eq, hwide.rawMeans_eq]
  exact (range_isPrefix (Nat.add_le_add_right hle lookahead)).map _

theorem Follows.means_isPrefix : e.means <+: wide.means :=
  (List.prefix_map_iff_of_injective Q9.raw_injective).mp (h.rawMeans_isPrefix hwide hle)

end Streams

theorem extremes_of_isPrefix (hne : e.rawMeans ≠ []) (h : e.rawMeans <+: wide.rawMeans) :
    wide.lowest ≤ e.lowest ∧ e.highest ≤ wide.highest :=
  ⟨lowest_le (h.subset (lowest_mem hne)), le_highest (h.subset (highest_mem hne))⟩

section Courses

variable {outcomes wideOutcomes : List Outcome}
  (h : Course ⟨maxDelay, lookahead⟩ e (frames.map .frame) outcomes)
  (hwide : Course ⟨wideDelay, lookahead⟩ wide (frames.map .frame) wideOutcomes)
  (he : Started ⟨maxDelay, lookahead⟩ e) (hw : Started ⟨wideDelay, lookahead⟩ wide)
  (hle : maxDelay ≤ wideDelay)
include h hwide he hw hle

theorem Course.encloses {n : Nat} (hn : n ≤ frames.length) :
    Encloses wide wideOutcomes e outcomes n := by
  intro k hk
  obtain ⟨ha, -⟩ := he.eq_fresh
  apply extremes_of_isPrefix ((h.frame_sound (by omega)).rawMeans_ne_nil ha)
  exact (h.follows he (by omega)).rawMeans_isPrefix (hwide.follows hw (by omega)) hle

/-- A delay is known from the first valley on, and the wider window has this valley too. -/
theorem Course.wide_lastDelay_ne_none {n : Nat} (hn : n ≤ frames.length)
    (hknown : (e.stateAt outcomes n).lastDelay ≠ none) :
    (wide.stateAt wideOutcomes n).lastDelay ≠ none := by
  rw [Ne, h.lastDelay_eq_none_iff he hn] at hknown
  rw [Ne, hwide.lastDelay_eq_none_iff hw hn]
  intro hnever
  apply hknown
  intro j hj hvalley
  exact hnever j hj (hvalley.enclosed (h.encloses hwide he hw hle hn) hj)

end Courses

/-- A wider window keeps the distances and means of the candidates there are, has thresholds that
are at most as high, and knows a delay at least as early. -/
theorem run_widened (he : Started ⟨maxDelay, lookahead⟩ e) (hw : Started ⟨wideDelay, lookahead⟩ wide)
    (hle : maxDelay ≤ wideDelay) (frames : List Frame) :
    ∃ outcomes wideOutcomes, e.run (frames.map .frame) = .ok outcomes ∧
      wide.run (frames.map .frame) = .ok wideOutcomes ∧
      outcomes.length = frames.length ∧ wideOutcomes.length = frames.length ∧
      ∀ k ≤ frames.length,
        (e.stateAt outcomes k).distances <+: (wide.stateAt wideOutcomes k).distances ∧
        (e.stateAt outcomes k).means <+: (wide.stateAt wideOutcomes k).means ∧
        (wide.stateAt wideOutcomes k).thresholds.minimumProbability ≤
          (e.stateAt outcomes k).thresholds.minimumProbability ∧
        (wide.stateAt wideOutcomes k).thresholds.lastDelayProbability ≤
          (e.stateAt outcomes k).thresholds.lastDelayProbability ∧
        ((e.stateAt outcomes k).lastDelay ≠ none →
          (wide.stateAt wideOutcomes k).lastDelay ≠ none) := by
  obtain ⟨outcomes, hrun, hcourse⟩ := he.run_frames frames
  obtain ⟨wideOutcomes, hwideRun, hwide⟩ := hw.run_frames frames
  refine ⟨outcomes, wideOutcomes, hrun, hwideRun, hcourse.frames_length, hwide.frames_length, ?_⟩
  intro k hk
  have hfollows := hcourse.follows he hk
  have hwideFollows := hwide.follows hw hk
  have hencloses := hcourse.encloses hwide he hw hle hk
  refine ⟨hfollows.distances_isPrefix hwideFollows hle, hfollows.means_isPrefix hwideFollows hle,
    ?_, ?_, hcourse.wide_lastDelay_ne_none hwide he hw hle hk⟩
  · rw [Q9.le_iff, hcourse.minimum_eq_leastBound he hk, hwide.minimum_eq_leastBound hw hk]
    exact hencloses.leastBound_le
  · rw [Q9.le_iff, hcourse.level_eq_leastLevel he hk, hwide.level_eq_leastLevel hw hk]
    exact hencloses.leastLevel_le

/-- With three candidates instead of two, the delay is known as well once the valley is wide. -/
theorem run_widened_wideValley :
    ∃ e wide outcomes wideOutcomes, Started ⟨2, 0⟩ e ∧ Started ⟨3, 0⟩ wide ∧
      e.run (wideValley.map .frame) = .ok outcomes ∧
      wide.run (wideValley.map .frame) = .ok wideOutcomes ∧
      (e.stateAt outcomes 53).lastDelay = some 0 ∧
      (wide.stateAt wideOutcomes 53).lastDelay ≠ none ∧
      (wide.stateAt wideOutcomes 53).thresholds.minimumProbability ≤
        (e.stateAt outcomes 53).thresholds.minimumProbability := by
  have he := started_fresh (d := ⟨2, 0⟩) (by decide)
  have hw := started_fresh (d := ⟨3, 0⟩) (by decide)
  obtain ⟨outcomes, wideOutcomes, hrun, hwideRun, -, -, hwidened⟩ :=
    run_widened he hw (by decide) wideValley
  obtain ⟨-, -, hminimum, -, hknows⟩ := hwidened 53 (by decide)
  have hdelay : ((fresh ⟨2, 0⟩ (by decide)).stateAt outcomes 53).lastDelay = some 0 := by
    rw [outcomes_eq hrun]
    decide +kernel
  exact ⟨_, _, outcomes, wideOutcomes, he, hw, hrun, hwideRun, hdelay, hknows (by simp [hdelay]),
    hminimum⟩

end Estimator
end EchoDelay
