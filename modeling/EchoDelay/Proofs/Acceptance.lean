import EchoDelay.Proofs.Run

/-!
# Which valleys are accepted

The last delay probability is the least of two lines and of the lowest means of all valleys so far,
each raised by its age. Means stay below both lines, so a valley is accepted exactly if it lies
below the minimum probability or below every earlier valley at its present height.
-/
namespace EchoDelay.Estimator

variable {d : Dimensions} {e : Estimator} {frames : List Frame} {outcomes : List Outcome}

theorem lt_drifted_iff (v level : Int) :
    v < Thresholds.drifted level ↔ v < 2147483647 ∧ v - 1 < level := by
  rw [Thresholds.drifted]
  omega

/-- Frame `k` of a run, counted from one, has left a valley. -/
def ValleyAt (e : Estimator) (outcomes : List Outcome) (k : Nat) : Prop :=
  1 ≤ k ∧ (e.stateAt outcomes k).Distinct

instance (e : Estimator) (outcomes : List Outcome) (k : Nat) : Decidable (ValleyAt e outcomes k) :=
  inferInstanceAs (Decidable (_ ∧ _))

/-- Frame `k` has left a valley that is either below the minimum probability or below every earlier
valley, raised by one for each frame since. -/
def AcceptedAt (e : Estimator) (outcomes : List Outcome) (k : Nat) : Prop :=
  ValleyAt e outcomes k ∧
    ((e.stateAt outcomes k).lowest <
        (e.stateAt outcomes k).thresholds.minimumProbability.raw ∨
      ¬ ∃ j < k, ValleyAt e outcomes j ∧
        (e.stateAt outcomes j).lowest + (k - j) ≤ (e.stateAt outcomes k).lowest)

/-- The values below the last delay probability after `k` frames. -/
def BelowLevel (e : Estimator) (outcomes : List Outcome) (k : Nat) (v : Int) : Prop :=
  v < 2147483647 ∧ v < 16384 + k ∧
    ∀ j ≤ k, ValleyAt e outcomes j → v < (e.stateAt outcomes j).lowest + (k - j)

/-- Guards and anchoring together only take a minimum: the new level is the least of the drifted
one and the lowest mean of a valley. -/
theorem Decided.lt_level_iff {o : Outcome} (h : Decided e o) (v : Int) :
    v < o.estimator.thresholds.lastDelayProbability.raw ↔
      v < Thresholds.drifted e.thresholds.lastDelayProbability.raw ∧
        (o.estimator.Distinct → v < o.estimator.lowest) := by
  rw [h.level_eq]
  by_cases hdistinct : o.estimator.Distinct
  · by_cases himproved :
        o.estimator.lowest < Thresholds.drifted e.thresholds.lastDelayProbability.raw
    · rw [if_pos ⟨hdistinct, himproved⟩]
      exact ⟨fun hv => ⟨by omega, fun _ => hv⟩, fun hv => hv.2 hdistinct⟩
    · rw [if_neg fun hboth => himproved hboth.2]
      exact ⟨fun hv => ⟨hv, fun _ => by omega⟩, fun hv => hv.1⟩
  · rw [if_neg fun hboth => hdistinct hboth.1]
    exact ⟨fun hv => ⟨hv, fun hd => absurd hd hdistinct⟩, fun hv => hv.1⟩

/-- A valley is never below the level that it leaves. -/
theorem Decided.level_le {o : Outcome} (h : Decided e o) (hdistinct : o.estimator.Distinct) :
    o.estimator.thresholds.lastDelayProbability.raw ≤ o.estimator.lowest := by
  by_contra hbelow
  have hlt := ((h.lt_level_iff _).mp (Int.not_le.mp hbelow)).2 hdistinct
  omega

theorem belowLevel_succ_iff (e : Estimator) (outcomes : List Outcome) (k : Nat) (v : Int) :
    BelowLevel e outcomes (k + 1) v ↔
      (v < 2147483647 ∧ BelowLevel e outcomes k (v - 1)) ∧
        ((e.stateAt outcomes (k + 1)).Distinct → v < (e.stateAt outcomes (k + 1)).lowest) := by
  constructor
  · rintro ⟨hmax, hline, hvalleys⟩
    refine ⟨⟨hmax, by omega, by omega, fun j hj hvalley => ?_⟩, fun hdistinct => ?_⟩
    · have := hvalleys j (by omega) hvalley
      omega
    · have := hvalleys (k + 1) (by omega) ⟨by omega, hdistinct⟩
      omega
  · rintro ⟨⟨hmax, -, hline, hvalleys⟩, hlast⟩
    refine ⟨hmax, by omega, fun j hj hvalley => ?_⟩
    by_cases heq : j = k + 1
    · subst heq
      have := hlast hvalley.2
      omega
    · have := hvalleys j (by omega) hvalley
      omega

/-- No earlier valley can hold the first one back. -/
theorem acceptedAt_of_first {k : Nat} (hvalley : ValleyAt e outcomes k)
    (hfirst : ∀ j < k, ¬ ValleyAt e outcomes j) : AcceptedAt e outcomes k := by
  refine ⟨hvalley, .inr ?_⟩
  rintro ⟨j, hj, hearlier, -⟩
  exact hfirst j hj hearlier

namespace Course

/-- The closed form of the threshold that drifts and is anchored anew. -/
theorem lt_level_iff (h : Course d e (frames.map .frame) outcomes) (he : Started d e) {k : Nat}
    (hk : k ≤ frames.length) (v : Int) :
    v < (e.stateAt outcomes k).thresholds.lastDelayProbability.raw ↔
      BelowLevel e outcomes k v := by
  induction k generalizing v with
  | zero =>
    rw [stateAt_zero, he.thresholds_eq, Thresholds.initial_lastDelayProbability_raw, BelowLevel]
    constructor
    · intro hv
      refine ⟨by omega, by omega, ?_⟩
      rintro j hj ⟨hpos, -⟩
      omega
    · rintro ⟨-, hv, -⟩
      omega
  | succ k ih =>
    obtain ⟨o, -, hprocessed, hstate⟩ := h.processed_at hk
    rw [belowLevel_succ_iff, hstate, hprocessed.toDecided.lt_level_iff, lt_drifted_iff,
      ih (by omega)]

/-- Within the range of the means only an earlier valley can hold a lowest mean back. -/
theorem improved_iff (h : Course d e (frames.map .frame) outcomes) (he : Started d e) {k : Nat}
    (hk : k < frames.length) {v : Int} (hv : MeanInRange v) :
    v < Thresholds.drifted (e.stateAt outcomes k).thresholds.lastDelayProbability.raw ↔
      ¬ ∃ j < k + 1, ValleyAt e outcomes j ∧
        (e.stateAt outcomes j).lowest + ((k + 1 : Nat) - j) ≤ v := by
  obtain ⟨hl, hg⟩ := hv
  rw [lt_drifted_iff, h.lt_level_iff he (Nat.le_of_lt hk), BelowLevel]
  constructor
  · rintro ⟨-, -, -, hvalleys⟩ ⟨j, hj, hvalley, hle⟩
    have := hvalleys j (by omega) hvalley
    omega
  · intro hnone
    refine ⟨by omega, by omega, by omega, fun j hj hvalley => ?_⟩
    by_contra hge
    exact hnone ⟨j, by omega, hvalley, by omega⟩

theorem accepted_iff (h : Course d e (frames.map .frame) outcomes) (he : Started d e) {k : Nat}
    (hk : k < frames.length) :
    AcceptedAt e outcomes (k + 1) ↔
      (e.stateAt outcomes (k + 1)).Distinct ∧
        ((e.stateAt outcomes (k + 1)).lowest <
            (e.stateAt outcomes (k + 1)).thresholds.minimumProbability.raw ∨
          (e.stateAt outcomes (k + 1)).lowest < Thresholds.drifted
            (e.stateAt outcomes k).thresholds.lastDelayProbability.raw) := by
  obtain ⟨ha, -⟩ := he.eq_fresh
  have hsound := h.frame_sound hk
  have hmeans := hsound.means_inRange _ (lowest_mem (hsound.rawMeans_ne_nil ha))
  rw [h.improved_iff he hk hmeans, AcceptedAt, ValleyAt]
  simp

/-- The delay after a frame, as far as the frame is accepted or not. -/
theorem lastDelay_succ (h : Course d e (frames.map .frame) outcomes) (he : Started d e) {k : Nat}
    (hk : k < frames.length) :
    (AcceptedAt e outcomes (k + 1) →
      (e.stateAt outcomes (k + 1)).lastDelay =
        some (e.stateAt outcomes (k + 1)).leader) ∧
    (¬ AcceptedAt e outcomes (k + 1) →
      (e.stateAt outcomes (k + 1)).lastDelay =
        (e.stateAt outcomes k).lastDelay) := by
  obtain ⟨o, -, hprocessed, hstate⟩ := h.processed_at hk
  have hdelay := hprocessed.lastDelay_eq
  rw [← hstate] at hdelay
  rw [h.accepted_iff he hk, hdelay]
  exact ⟨fun hif => if_pos hif, fun hif => if_neg hif⟩

theorem lastDelay_eq_none_iff (h : Course d e (frames.map .frame) outcomes) (he : Started d e)
    {k : Nat} (hk : k ≤ frames.length) :
    (e.stateAt outcomes k).lastDelay = none ↔
      ∀ j ≤ k, ¬ ValleyAt e outcomes j := by
  induction k with
  | zero =>
    constructor
    · rintro - j hj ⟨hpos, -⟩
      omega
    · intro _
      exact he.lastDelay_eq
  | succ k ih =>
    obtain ⟨haccepted, hrejected⟩ := h.lastDelay_succ he hk
    by_cases hcase : AcceptedAt e outcomes (k + 1)
    · rw [haccepted hcase]
      constructor
      · intro hnone
        cases hnone
      · intro hnever
        exact absurd hcase.1 (hnever (k + 1) (Nat.le_refl _))
    · rw [hrejected hcase, ih (by omega)]
      constructor
      · intro hnever j hj hvalley
        by_cases heq : j = k + 1
        · subst heq
          exact hcase (acceptedAt_of_first hvalley fun i hi => hnever i (by omega))
        · exact hnever j (by omega) hvalley
      · intro hnever j hj
        exact hnever j (by omega)

/-- A delay is the leader of the valley that was accepted last. -/
theorem exists_acceptedAt (h : Course d e (frames.map .frame) outcomes) (he : Started d e)
    {k c : Nat} (hk : k ≤ frames.length) (hlast : (e.stateAt outcomes k).lastDelay = some c) :
    ∃ j ≤ k, AcceptedAt e outcomes j ∧ (e.stateAt outcomes j).leader = c ∧
      ∀ i, j ≤ i → i ≤ k → (e.stateAt outcomes i).lastDelay = some c := by
  induction k with
  | zero =>
    rw [stateAt_zero, he.lastDelay_eq] at hlast
    cases hlast
  | succ k ih =>
    obtain ⟨haccepted, hrejected⟩ := h.lastDelay_succ he hk
    by_cases hcase : AcceptedAt e outcomes (k + 1)
    · refine ⟨k + 1, le_rfl, hcase, ?_, ?_⟩
      · exact Option.some.inj ((haccepted hcase).symm.trans hlast)
      · intro i hge hle
        obtain rfl := Nat.le_antisymm hle hge
        exact hlast
    · obtain ⟨j, hj, hacc, hleader, hsince⟩ := ih (by omega) ((hrejected hcase).symm.trans hlast)
      refine ⟨j, by omega, hacc, hleader, ?_⟩
      intro i hge hle
      rcases Nat.le_or_eq_of_le_succ hle with hle | rfl
      · exact hsince i hge hle
      · exact hlast

end Course

/-- The delay after every frame of a run, without the level that drifts. -/
theorem run_lastDelay (he : Started d e) (frames : List Frame) :
    ∃ outcomes, e.run (frames.map .frame) = .ok outcomes ∧ outcomes.length = frames.length ∧
      (∀ k, 1 ≤ k → k ≤ frames.length →
        (AcceptedAt e outcomes k →
          (e.stateAt outcomes k).lastDelay = some (e.stateAt outcomes k).leader) ∧
        (¬ AcceptedAt e outcomes k →
          (e.stateAt outcomes k).lastDelay = (e.stateAt outcomes (k - 1)).lastDelay)) ∧
      (∀ k ≤ frames.length, (e.stateAt outcomes k).lastDelay = none ↔
        ∀ j ≤ k, ¬ ValleyAt e outcomes j) ∧
      (∀ k ≤ frames.length, ValleyAt e outcomes k → (∀ j < k, ¬ ValleyAt e outcomes j) →
        (e.stateAt outcomes k).lastDelay = some (e.stateAt outcomes k).leader) := by
  obtain ⟨outcomes, hrun, hcourse⟩ := he.run_frames frames
  have hlaw : ∀ k, 1 ≤ k → k ≤ frames.length →
      (AcceptedAt e outcomes k → (e.stateAt outcomes k).lastDelay =
        some (e.stateAt outcomes k).leader) ∧
      (¬ AcceptedAt e outcomes k → (e.stateAt outcomes k).lastDelay =
        (e.stateAt outcomes (k - 1)).lastDelay) := by
    intro k hpos hk
    cases k with
    | zero => omega
    | succ k => exact hcourse.lastDelay_succ he hk
  refine ⟨outcomes, hrun, hcourse.frames_length, hlaw,
    fun k hk => hcourse.lastDelay_eq_none_iff he hk, ?_⟩
  intro k hk hvalley hfirst
  exact (hlaw k hvalley.1 hk).1 (acceptedAt_of_first hvalley hfirst)

/-- Where the near end repeats every other far end, the first valley comes after 17 frames. -/
theorem run_lastDelay_first_valley :
    ∃ e outcomes, Started ⟨2, 0⟩ e ∧
      e.run ((List.replicate 9 [⟨0xFFFFFFFF, 0xFFFFFFFF⟩, ⟨0, 0⟩]).flatten.map .frame) =
        .ok outcomes ∧
      (e.stateAt outcomes 16).lastDelay = none ∧ (e.stateAt outcomes 17).lastDelay = some 0 := by
  have he := started_fresh (d := ⟨2, 0⟩) (by decide)
  obtain ⟨outcomes, hrun, -, -, hnone, hfirst⟩ := run_lastDelay he
    (List.replicate 9 [⟨0xFFFFFFFF, 0xFFFFFFFF⟩, ⟨0, 0⟩]).flatten
  have houtcomes := outcomes_eq hrun
  refine ⟨_, outcomes, he, hrun, ?_, ?_⟩
  · rw [hnone 16 (by decide), houtcomes]
    decide +kernel
  · rw [hfirst 17 (by decide) (by rw [houtcomes]; decide +kernel)
      (by rw [houtcomes]; decide +kernel), houtcomes]
    decide +kernel

end EchoDelay.Estimator
