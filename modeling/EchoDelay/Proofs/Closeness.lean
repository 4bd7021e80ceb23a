import EchoDelay.Proofs.Recovery

/-!
# A closer near end

Two estimators hear the same far end and different near ends. Smoothing is monotone in the mean and
in the target at once, so a candidate for which the near end of the first is at least as close on
every frame has a mean at least as low. Where this holds of all candidates, the whole landscape of
the first lies at most as high.
-/
namespace EchoDelay.Estimator

/-- Candidate `i` has no far end, or it is at most as far from the near end in `a` as in `b`. -/
def CloserAt (i : Nat) (a b : Estimator) : Prop :=
  a.Hears i → ∀ distance ∈ a.distances[i]?, ∀ distance' ∈ b.distances[i]?, distance ≤ distance'

instance (i : Nat) (a b : Estimator) : Decidable (CloserAt i a b) :=
  inferInstanceAs (Decidable (a.Hears i → ∀ distance ∈ _, _))

/-- Candidate `i` has a mean in `a` that is at most that in `b`. -/
def LowerAt (i : Nat) (a b : Estimator) : Prop :=
  ∃ mean mean', a.rawMeans[i]? = some mean ∧ b.rawMeans[i]? = some mean' ∧ mean ≤ mean'

variable {d : Dimensions} {a b a' b' : Estimator} {i : Nat}

theorem lowerAt_fresh (ha : d.Accepted) (hi : i < d.candidates) :
    LowerAt i (fresh d ha) (fresh d ha) := by
  have hmean := List.getElem?_eq_getElem (by rwa [(sound_fresh ha).rawMeans_length])
  exact ⟨_, _, hmean, hmean, le_rfl⟩

/-- A frame on which the near end of the first is closer keeps its mean the lower one. -/
theorem LowerAt.heard {frame frame' : Frame} (h : LowerAt i a b) (ha : Sound d a) (hb : Sound d b)
    (ha' : Sound d a') (hb' : Sound d b') (hheard : Heard a frame a') (hheard' : Heard b frame' b')
    (hfar : a'.farHistory = b'.farHistory) (hcloser : CloserAt i a' b') : LowerAt i a' b' := by
  obtain ⟨mean, mean', hmean, hmean', hle⟩ := h
  have hi : i < d.candidates := by
    rw [← ha.rawMeans_length]
    exact (List.getElem?_eq_some_iff.mp hmean).1
  obtain ⟨before, far, distance, hbefore, hslot, hdistance, hafter⟩ := ha.mean_at hheard ha' hi
  obtain ⟨before', far', distance', hbefore', hslot', hdistance', hafter'⟩ :=
    hb.mean_at hheard' hb' hi
  obtain rfl := Option.some.inj (hbefore.symm.trans hmean)
  obtain rfl := Option.some.inj (hbefore'.symm.trans hmean')
  rw [← hfar, hslot, Option.some.injEq] at hslot'
  subst hslot'
  refine ⟨_, _, hafter, hafter', ?_⟩
  by_cases hempty : far = 0
  · rwa [hempty, bitCount_zero, smoothedMean_empty, smoothedMean_empty]
  · have htarget := hcloser ⟨far, hslot, hempty⟩ distance hdistance distance' hdistance'
    exact smoothedMean_mono _ hle htarget

/-- Where every mean is lower, so are the lowest and the highest. -/
theorem extremes_le_of_lowerAt (ha : Sound d a) (hb : Sound d b) (hd : d.Accepted)
    (h : ∀ i < d.candidates, LowerAt i a b) : a.lowest ≤ b.lowest ∧ a.highest ≤ b.highest := by
  constructor
  · obtain ⟨i, hi⟩ := List.getElem?_of_mem (lowest_mem (hb.rawMeans_ne_nil hd))
    have hlt := (List.getElem?_eq_some_iff.mp hi).1
    rw [hb.rawMeans_length] at hlt
    obtain ⟨mean, mean', hmean, hmean', hle⟩ := h i hlt
    obtain rfl := Option.some.inj (hi.symm.trans hmean')
    exact (lowest_le (List.mem_of_getElem? hmean)).trans hle
  · obtain ⟨i, hi⟩ := List.getElem?_of_mem (highest_mem (ha.rawMeans_ne_nil hd))
    have hlt := (List.getElem?_eq_some_iff.mp hi).1
    rw [ha.rawMeans_length] at hlt
    obtain ⟨mean, mean', hmean, hmean', hle⟩ := h i hlt
    obtain rfl := Option.some.inj (hi.symm.trans hmean)
    exact hle.trans (le_highest (List.mem_of_getElem? hmean'))

theorem length_eq_of_far_eq {frames frames' : List Frame}
    (hfar : frames.map Frame.far = frames'.map Frame.far) : frames.length = frames'.length := by
  simpa using congrArg List.length hfar

section Courses

variable {frames frames' : List Frame} {outcomes outcomes' : List Outcome}
  (h : Course d a (frames.map .frame) outcomes) (h' : Course d b (frames'.map .frame) outcomes')
  (hfar : frames.map Frame.far = frames'.map Frame.far) (hstart : a.farHistory = b.farHistory)
include h h' hfar hstart

theorem Course.farHistory_eq {k : Nat} (hk : k ≤ frames.length) :
    (a.stateAt outcomes k).farHistory = (b.stateAt outcomes' k).farHistory := by
  have hlength := length_eq_of_far_eq hfar
  induction k with
  | zero => exact hstart
  | succ k ih =>
    obtain ⟨o, -, hprocessed, hstate⟩ := h.processed_at hk
    have hk' : k < frames'.length := by omega
    obtain ⟨o', -, hprocessed', hstate'⟩ := h'.processed_at hk'
    have hframe : frames[k].far = frames'[k].far := by
      have hget := congrArg (·[k]?) hfar
      simpa [List.getElem?_eq_getElem (Nat.lt_of_succ_le hk), List.getElem?_eq_getElem hk']
        using hget
    rw [hstate, hstate', hprocessed.farHistory_eq, hprocessed'.farHistory_eq, ih (by omega), hframe]

theorem Course.lowerAt (hlower : LowerAt i a b) {n : Nat} (hn : n ≤ frames.length)
    (hcloser : ∀ k, 1 ≤ k → k ≤ n →
      CloserAt i (a.stateAt outcomes k) (b.stateAt outcomes' k)) :
    LowerAt i (a.stateAt outcomes n) (b.stateAt outcomes' n) := by
  have hlength := length_eq_of_far_eq hfar
  induction n with
  | zero => exact hlower
  | succ n ih =>
    obtain ⟨o, -, hprocessed, hstate⟩ := h.processed_at hn
    obtain ⟨o', -, hprocessed', hstate'⟩ := h'.processed_at (by omega : n < frames'.length)
    have hheard := hprocessed.toHeard
    have hheard' := hprocessed'.toHeard
    rw [← hstate] at hheard
    rw [← hstate'] at hheard'
    exact (ih (by omega) fun k hl hk => hcloser k hl (by omega)).heard (h.frame_sound (by omega))
      (h'.frame_sound (by omega)) (h.frame_sound hn) (h'.frame_sound (by omega)) hheard hheard'
      (h.farHistory_eq h' hfar hstart hn) (hcloser (n + 1) (by omega) le_rfl)

end Courses

/-- With the same far end, a near end that is closer for a candidate on every frame gives it a mean
at least as low, and one that is closer for all of them a landscape at most as high. -/
theorem run_closer (ha : Started d a) (hb : Started d b) {frames frames' : List Frame}
    (hfar : frames.map Frame.far = frames'.map Frame.far) :
    ∃ outcomes outcomes', a.run (frames.map .frame) = .ok outcomes ∧
      b.run (frames'.map .frame) = .ok outcomes' ∧
      outcomes.length = frames.length ∧ outcomes'.length = frames.length ∧
      ∀ n ≤ frames.length,
        (∀ i < d.maxDelay + d.lookahead,
          (∀ k, 1 ≤ k → k ≤ n → CloserAt i (a.stateAt outcomes k) (b.stateAt outcomes' k)) →
            LowerAt i (a.stateAt outcomes n) (b.stateAt outcomes' n)) ∧
        ((∀ i < d.maxDelay + d.lookahead, ∀ k, 1 ≤ k → k ≤ n →
            CloserAt i (a.stateAt outcomes k) (b.stateAt outcomes' k)) →
          (a.stateAt outcomes n).lowest ≤ (b.stateAt outcomes' n).lowest ∧
            (a.stateAt outcomes n).highest ≤ (b.stateAt outcomes' n).highest) := by
  obtain ⟨outcomes, hrun, hcourse⟩ := ha.run_frames frames
  obtain ⟨outcomes', hrun', hcourse'⟩ := hb.run_frames frames'
  obtain ⟨hd, rfl⟩ := ha.eq_fresh
  obtain ⟨_, rfl⟩ := hb.eq_fresh
  have hlength := length_eq_of_far_eq hfar
  refine ⟨outcomes, outcomes', hrun, hrun', hcourse.frames_length, ?_, ?_⟩
  · rw [hcourse'.frames_length, hlength]
  intro n hn
  have hlower : ∀ i < d.candidates, (∀ k, 1 ≤ k → k ≤ n →
      CloserAt i ((fresh d hd).stateAt outcomes k) ((fresh d hd).stateAt outcomes' k)) →
        LowerAt i ((fresh d hd).stateAt outcomes n) ((fresh d hd).stateAt outcomes' n) :=
    fun i hi hcloser => hcourse.lowerAt hcourse' hfar rfl (lowerAt_fresh hd hi) hn hcloser
  refine ⟨hlower, fun hcloser => ?_⟩
  exact extremes_le_of_lowerAt (hcourse.frame_sound hn) (hcourse'.frame_sound (by omega)) hd
    fun i hi => hlower i hi (hcloser i hi)

/-- One mean falls to its target while the other one rises to its own. -/
theorem run_closer_opposed :
    ∃ a b outcomes outcomes', Started ⟨1, 1⟩ a ∧ Started ⟨1, 1⟩ b ∧
      a.run ((List.replicate 6 ⟨0xFFFFFFFF, 0xFFFFFFFF⟩).map .frame) = .ok outcomes ∧
      b.run ((List.replicate 6 ⟨0xFFFFFFFF, 0⟩).map .frame) = .ok outcomes' ∧
      (a.stateAt outcomes 6).means.map Q9.raw = [9895, 9848] ∧
      (b.stateAt outcomes' 6).means.map Q9.raw = [10520, 10474] ∧
      LowerAt 1 (a.stateAt outcomes 6) (b.stateAt outcomes' 6) ∧
      (a.stateAt outcomes 6).lowest ≤ (b.stateAt outcomes' 6).lowest ∧
      (a.stateAt outcomes 6).highest ≤ (b.stateAt outcomes' 6).highest := by
  have ha := started_fresh (d := ⟨1, 1⟩) (by decide)
  have hfar : (List.replicate 6 (⟨0xFFFFFFFF, 0xFFFFFFFF⟩ : Frame)).map Frame.far =
      (List.replicate 6 ⟨0xFFFFFFFF, 0⟩).map Frame.far := by decide
  obtain ⟨outcomes, outcomes', hrun, hrun', -, -, h⟩ := run_closer ha ha hfar
  have hcloser : ∀ i < 2, ∀ k < 7,
      CloserAt i ((fresh ⟨1, 1⟩ (by decide)).stateAt outcomes k)
        ((fresh ⟨1, 1⟩ (by decide)).stateAt outcomes' k) := by
    rw [outcomes_eq hrun, outcomes_eq hrun']
    decide +kernel
  obtain ⟨hlower, hextremes⟩ := h 6 (by decide)
  refine ⟨_, _, outcomes, outcomes', ha, ha, hrun, hrun', ?_, ?_,
    hlower 1 (by decide) fun k _ hk => hcloser 1 (by decide) k (by omega),
    hextremes fun i hi k _ hk => hcloser i hi k (by omega)⟩
  · rw [outcomes_eq hrun]
    decide +kernel
  · rw [outcomes_eq hrun']
    decide +kernel

end EchoDelay.Estimator
