import EchoDelay.Proofs.Acceptance
import Mathlib.Data.Finset.Fold

/-!
# Closed forms of the thresholds

Both thresholds are the least of some values over the frames so far. For the minimum probability
these are the bounds set by wide valleys, and for the last delay probability the lowest means of all
valleys, each raised by one raw step for every frame since. The order in which an assessment lowers,
drifts, compares and anchors leaves no other trace in them.
-/
namespace EchoDelay

/-- A least value falls when more frames count and none of them counts for more. -/
theorem fold_min_filter_le {p q : Nat → Prop} [DecidablePred p] [DecidablePred q] {m n : Nat}
    {start : Int} {f g : Nat → Int} (hnm : n ≤ m) (hpq : ∀ k ≤ n, p k → q k)
    (hfg : ∀ k ≤ n, f k ≤ g k) :
    ((Finset.range (m + 1)).filter q).fold min start f ≤
      ((Finset.range (n + 1)).filter p).fold min start g := by
  rw [Finset.le_fold_min]
  constructor
  · exact (Finset.fold_min_le start).mpr (.inl le_rfl)
  · intro k hk
    simp only [Finset.mem_filter, Finset.mem_range, Nat.lt_succ_iff] at hk
    apply (Finset.fold_min_le (g k)).mpr
    refine .inr ⟨k, ?_, hfg k hk.1⟩
    simp only [Finset.mem_filter, Finset.mem_range, Nat.lt_succ_iff]
    exact ⟨hk.1.trans hnm, hpq k hk.1 hk.2⟩

namespace Estimator

/-- Frame `k` of a run, counted from one, has left a valley deep enough to bound the minimum
probability. -/
def WideAt (e : Estimator) (outcomes : List Outcome) (k : Nat) : Prop :=
  1 ≤ k ∧ 2816 < (e.stateAt outcomes k).highest - (e.stateAt outcomes k).lowest

instance (e : Estimator) (outcomes : List Outcome) (k : Nat) : Decidable (WideAt e outcomes k) :=
  inferInstanceAs (Decidable (_ ∧ _))

/-- The least of 32.0 and, for each wide valley of the first `n` frames, the margin above its lowest
mean or 17.0, whichever is greater. -/
def leastBound (e : Estimator) (outcomes : List Outcome) (n : Nat) : Int :=
  ((Finset.range (n + 1)).filter (WideAt e outcomes)).fold min 16384 fun k =>
    max ((e.stateAt outcomes k).lowest + 1024) 8704

/-- The least of the greatest number, of the line that rises from 32.0 and, for each valley of the
first `n` frames, the line that rises from its lowest mean. -/
def leastLevel (e : Estimator) (outcomes : List Outcome) (n : Nat) : Int :=
  ((Finset.range (n + 1)).filter (ValleyAt e outcomes)).fold min (min 2147483647 (16384 + n))
    fun k => (e.stateAt outcomes k).lowest + (n - k)

theorem leastBound_zero (e : Estimator) (outcomes : List Outcome) :
    leastBound e outcomes 0 = 16384 := by
  simp [leastBound, WideAt, Finset.filter_singleton]

theorem leastBound_succ (e : Estimator) (outcomes : List Outcome) (n : Nat) :
    leastBound e outcomes (n + 1) = Thresholds.lowered (leastBound e outcomes n)
      (e.stateAt outcomes (n + 1)).lowest (e.stateAt outcomes (n + 1)).highest := by
  rw [leastBound, Finset.range_add_one, Finset.filter_insert, Thresholds.lowered]
  by_cases hwide : WideAt e outcomes (n + 1)
  · have hspread := hwide.2
    rw [if_pos hwide, Finset.fold_insert (by simp), min_comm, if_neg (by omega)]
    rfl
  · have hspread : ¬ 2816 < (e.stateAt outcomes (n + 1)).highest -
        (e.stateAt outcomes (n + 1)).lowest := fun h => hwide ⟨by omega, h⟩
    rw [if_neg hwide, if_pos (by omega)]
    rfl

theorem lt_leastLevel_iff (e : Estimator) (outcomes : List Outcome) (n : Nat) (v : Int) :
    v < leastLevel e outcomes n ↔ BelowLevel e outcomes n v := by
  rw [leastLevel, Finset.lt_fold_min, BelowLevel, lt_min_iff, and_assoc]
  simp only [Finset.mem_filter, Finset.mem_range, Nat.lt_succ_iff, and_imp]

namespace Course

variable {d : Dimensions} {e : Estimator} {frames : List Frame} {outcomes : List Outcome}

theorem minimum_eq_leastBound (h : Course d e (frames.map .frame) outcomes) (he : Started d e)
    {n : Nat} (hn : n ≤ frames.length) :
    (e.stateAt outcomes n).thresholds.minimumProbability.raw = leastBound e outcomes n := by
  induction n with
  | zero =>
    rw [stateAt_zero, he.thresholds_eq, Thresholds.initial_minimumProbability_raw, leastBound_zero]
  | succ n ih =>
    obtain ⟨o, -, hprocessed, hstate⟩ := h.processed_at hn
    rw [leastBound_succ, hstate, hprocessed.minimum_eq, ih (by omega)]

theorem level_eq_leastLevel (h : Course d e (frames.map .frame) outcomes) (he : Started d e)
    {n : Nat} (hn : n ≤ frames.length) :
    (e.stateAt outcomes n).thresholds.lastDelayProbability.raw = leastLevel e outcomes n := by
  -- two numbers with the same numbers below them are equal
  apply eq_of_forall_lt_iff
  intro v
  rw [h.lt_level_iff he hn, lt_leastLevel_iff]

/-- Between resets the minimum probability never rises. -/
theorem minimum_antitone (h : Course d e (frames.map .frame) outcomes) (he : Started d e)
    {j k : Nat} (hjk : j ≤ k) (hk : k ≤ frames.length) :
    (e.stateAt outcomes k).thresholds.minimumProbability ≤
      (e.stateAt outcomes j).thresholds.minimumProbability := by
  rw [Q9.le_iff, h.minimum_eq_leastBound he hk, h.minimum_eq_leastBound he (by omega)]
  exact fold_min_filter_le hjk (fun _ _ hwide => hwide) fun _ _ => le_rfl

end Course

/-- Both thresholds after any number of frames, from the lowest and the highest means alone. -/
theorem run_thresholds {d : Dimensions} {e : Estimator} (he : Started d e) (frames : List Frame) :
    ∃ outcomes, e.run (frames.map .frame) = .ok outcomes ∧ outcomes.length = frames.length ∧
      ∀ n ≤ frames.length,
        (e.stateAt outcomes n).thresholds.minimumProbability.raw = leastBound e outcomes n ∧
        (e.stateAt outcomes n).thresholds.lastDelayProbability.raw = leastLevel e outcomes n := by
  obtain ⟨outcomes, hrun, hcourse⟩ := he.run_frames frames
  refine ⟨outcomes, hrun, hcourse.frames_length, ?_⟩
  intro n hn
  exact ⟨hcourse.minimum_eq_leastBound he hn, hcourse.level_eq_leastLevel he hn⟩

/-- Candidate 0 sinks until its valley is wide, and then rises faster than the level drifts. -/
def wideValley : List Frame :=
  (List.replicate 25 [⟨0xFFFFFFFF, 0xFFFFFFFF⟩, ⟨0, 0⟩]).flatten ++
    List.replicate 3 ⟨0xFFFFFFFF, 0⟩

theorem run_thresholds_wideValley :
    ∃ e outcomes, Started ⟨2, 0⟩ e ∧ e.run (wideValley.map .frame) = .ok outcomes ∧
      (e.stateAt outcomes 53).thresholds.minimumProbability.raw = 9452 ∧
      (e.stateAt outcomes 53).thresholds.lastDelayProbability.raw = 8428 + 3 := by
  have he := started_fresh (d := ⟨2, 0⟩) (by decide)
  obtain ⟨outcomes, hrun, -, hthresholds⟩ := run_thresholds he wideValley
  obtain ⟨hminimum, hlevel⟩ := hthresholds 53 (by decide)
  have houtcomes := outcomes_eq hrun
  refine ⟨_, outcomes, he, hrun, ?_, ?_⟩
  · rw [hminimum, houtcomes]
    decide +kernel
  · rw [hlevel, houtcomes]
    decide +kernel

end Estimator
end EchoDelay
