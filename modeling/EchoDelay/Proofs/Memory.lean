import EchoDelay.Proofs.Run

/-!
# Fading memory

Two estimators of the same dimensions are given the same frames after different pasts. Each frame
fills one more slot of every history alike, so once there are as many frames as slots the buffers
are equal. From then on both means of a candidate are pulled to the same target: they come no
further apart and do not change places.
-/
namespace EchoDelay
namespace History

variable {α : Type} {a b : History α} {n : Nat}

/-- Where the `n` newest values agree, one more of both agrees after a push. -/
theorem take_slots_push (hsize : a.size = b.size) (h : a.slots.take n = b.slots.take n)
    (value : α) : (a.push value).slots.take (n + 1) = (b.push value).slots.take (n + 1) := by
  rw [size, size] at hsize
  rw [slots_push, slots_push, List.take_succ_cons, List.take_succ_cons, List.dropLast_eq_take,
    List.dropLast_eq_take, List.take_take, List.take_take, Nat.min_comm, ← List.take_take, h,
    List.take_take, Nat.min_comm, hsize]

theorem eq_of_take_slots (hsize : a.size = b.size) (h : a.slots.take n = b.slots.take n)
    (hn : a.size ≤ n) : a = b := by
  have hn' : b.size ≤ n := hsize ▸ hn
  apply slots_injective
  rwa [List.take_of_length_le hn, List.take_of_length_le hn'] at h

end History

/-- Two means of one candidate, before a frame and after it: they come no further apart and do not
change places. -/
structure Closing (before before' after after' : Int) : Prop where
  gap_le : (after - after').natAbs ≤ (before - before').natAbs
  le_of_le : before ≤ before' → after ≤ after'
  ge_of_ge : before' ≤ before → after' ≤ after

theorem closing_smoothedMean (mean mean' : Int) (distance farBitCount : Nat) :
    Closing mean mean' (smoothedMean mean distance farBitCount)
      (smoothedMean mean' distance farBitCount) where
  gap_le := by
    have hordered : ∀ {lower upper : Int}, lower ≤ upper →
        (smoothedMean upper distance farBitCount -
          smoothedMean lower distance farBitCount).natAbs ≤ (upper - lower).natAbs := by
      intro lower upper h
      have horder := smoothedMean_mono farBitCount h (Nat.le_refl distance)
      have hgap := smoothedMean_sub_le farBitCount h distance
      omega
    rcases Int.le_total mean mean' with h | h
    · have hgap := hordered h
      omega
    · exact hordered h
  le_of_le h := smoothedMean_mono farBitCount h (Nat.le_refl distance)
  ge_of_ge h := smoothedMean_mono farBitCount h (Nat.le_refl distance)

namespace Estimator

variable {d : Dimensions} {a b a' b' : Estimator} {frame : Frame}

/-- The buffers that hold recent frames only. -/
structure SameBuffers (a b : Estimator) : Prop where
  farHistory_eq : a.farHistory = b.farHistory
  nearHistory_eq : a.nearHistory = b.nearHistory
  farBitCounts_eq : a.farBitCounts = b.farBitCounts
  distances_eq : a.distances = b.distances

/-- The `n` newest slots of the histories agree. A near-end history of one slot is never written, so
no number of frames would make it agree. -/
structure Joined (n : Nat) (a b : Estimator) : Prop where
  farHistory_take : a.farHistory.slots.take n = b.farHistory.slots.take n
  nearHistory_take : a.nearHistory.slots.take n = b.nearHistory.slots.take n
  nearHistory_idle : ¬ 1 < a.nearHistory.size → a.nearHistory = b.nearHistory

/-- Without a lookahead the near-end history stays as it was made. -/
theorem Reachable.nearHistory_idle {e : Estimator} (h : Reachable d e) (hidle : d.lookahead = 0) :
    e.nearHistory.slots = [0] := by
  apply h.invariant (P := fun e => e.nearHistory.slots = [0])
  · intro ha
    rw [fresh, silent, History.slots_filled, hidle]
    rfl
  · intro e frame o hsound hslots hprocessed _
    have hsize := hsound.nearHistory_size
    rw [hprocessed.nearHistory_eq, if_neg (by omega)]
    exact hslots

theorem Reachable.joined (ha : Reachable d a) (hb : Reachable d b) : Joined 0 a b where
  farHistory_take := rfl
  nearHistory_take := rfl
  nearHistory_idle := by
    intro hidle
    rw [ha.sound.nearHistory_size] at hidle
    apply History.slots_injective
    rw [ha.nearHistory_idle (by omega), hb.nearHistory_idle (by omega)]

theorem Heard.due_eq {e after : Estimator} (h : Heard e frame after) :
    e.due frame = if 1 < e.nearHistory.size then after.nearHistory.oldest else frame.near := by
  rw [due]
  split
  · rename_i hsize
    rw [h.nearHistory_eq, if_pos hsize]
  · rfl

namespace Joined

variable {n : Nat}

theorem heard (h : Joined n a b) (ha : Sound d a) (hb : Sound d b) (hheard : Heard a frame a')
    (hheard' : Heard b frame b') : Joined (n + 1) a' b' := by
  have hsize : a.nearHistory.size = b.nearHistory.size := by
    rw [ha.nearHistory_size, hb.nearHistory_size]
  have hfar : a'.farHistory.slots.take (n + 1) = b'.farHistory.slots.take (n + 1) := by
    rw [hheard.farHistory_eq, hheard'.farHistory_eq]
    apply History.take_slots_push _ h.farHistory_take
    rw [ha.farHistory_size, hb.farHistory_size]
  by_cases hdelayed : 1 < a.nearHistory.size
  · have hnear := hheard.nearHistory_eq
    have hnear' := hheard'.nearHistory_eq
    rw [if_pos hdelayed] at hnear
    rw [← hsize, if_pos hdelayed] at hnear'
    refine ⟨hfar, ?_, ?_⟩
    · rw [hnear, hnear']
      exact History.take_slots_push hsize h.nearHistory_take _
    · rw [hnear, History.size_push]
      exact fun hidle => (hidle hdelayed).elim
  · have hequal : a'.nearHistory = b'.nearHistory := by
      rw [hheard.nearHistory_eq, if_neg hdelayed, hheard'.nearHistory_eq, ← hsize,
        if_neg hdelayed, h.nearHistory_idle hdelayed]
    exact ⟨hfar, by rw [hequal], fun _ => hequal⟩

/-- Once every slot has been filled since, nothing older is left in the histories. -/
theorem histories_eq (h : Joined n a b) (ha : Sound d a) (hb : Sound d b)
    (hn : max d.candidates (d.lookahead + 1) ≤ n) :
    a.farHistory = b.farHistory ∧ a.nearHistory = b.nearHistory := by
  constructor
  · apply History.eq_of_take_slots _ h.farHistory_take
    · rw [ha.farHistory_size]
      omega
    · rw [ha.farHistory_size, hb.farHistory_size]
  · apply History.eq_of_take_slots _ h.nearHistory_take
    · rw [ha.nearHistory_size]
      omega
    · rw [ha.nearHistory_size, hb.nearHistory_size]

end Joined

/-- Equal histories fix the counts, the near end that was due and with it the distances. -/
theorem sameBuffers_of_histories (ha : Sound d a) (hb : Sound d b) (ha' : Sound d a')
    (hb' : Sound d b') (hheard : Heard a frame a') (hheard' : Heard b frame b')
    (hfar : a'.farHistory = b'.farHistory) (hnear : a'.nearHistory = b'.nearHistory) :
    SameBuffers a' b' where
  farHistory_eq := hfar
  nearHistory_eq := hnear
  farBitCounts_eq := by
    apply History.slots_injective
    rw [ha'.farBitCounts_eq, hb'.farBitCounts_eq, hfar]
  distances_eq := by
    have hdue : a.due frame = b.due frame := by
      rw [hheard.due_eq, hheard'.due_eq, ha.nearHistory_size, hb.nearHistory_size, hnear]
    rw [hheard.distances_eq, hheard'.distances_eq, hfar, hdue]

theorem SameBuffers.closing (h : SameBuffers a' b') (ha : Sound d a) (hb : Sound d b)
    (ha' : Sound d a') (hb' : Sound d b') (hheard : Heard a frame a') (hheard' : Heard b frame b')
    {i : Nat} (hi : i < d.candidates) : ∃ mean mean' after after',
      a.rawMeans[i]? = some mean ∧ b.rawMeans[i]? = some mean' ∧
      a'.rawMeans[i]? = some after ∧ b'.rawMeans[i]? = some after' ∧
      Closing mean mean' after after' := by
  obtain ⟨mean, far, distance, hmean, hfar, hdistance, hafter⟩ := ha.mean_at hheard ha' hi
  obtain ⟨mean', far', distance', hmean', hfar', hdistance', hafter'⟩ :=
    hb.mean_at hheard' hb' hi
  rw [← h.farHistory_eq, hfar, Option.some.injEq] at hfar'
  rw [← h.distances_eq, hdistance, Option.some.injEq] at hdistance'
  subst hfar' hdistance'
  exact ⟨mean, mean', _, _, hmean, hmean', hafter, hafter',
    closing_smoothedMean mean mean' distance far.bitCount⟩

section Courses

variable {frames : List Frame} {outcomes outcomes' : List Outcome}
  (h : Course d a (frames.map .frame) outcomes) (h' : Course d b (frames.map .frame) outcomes')
  (hjoined : Joined 0 a b)
include h h' hjoined

theorem Course.joined {k : Nat} (hk : k ≤ frames.length) :
    Joined k (a.stateAt outcomes k) (b.stateAt outcomes' k) := by
  induction k with
  | zero => exact hjoined
  | succ k ih =>
    obtain ⟨o, -, hprocessed, hstate⟩ := h.processed_at hk
    obtain ⟨o', -, hprocessed', hstate'⟩ := h'.processed_at hk
    rw [hstate, hstate']
    exact (ih (by omega)).heard (h.frame_sound (by omega)) (h'.frame_sound (by omega))
      hprocessed.toHeard hprocessed'.toHeard

theorem Course.forgets {k : Nat} (hk : k < frames.length)
    (hpast : max d.candidates (d.lookahead + 1) ≤ k + 1) :
    SameBuffers (a.stateAt outcomes (k + 1)) (b.stateAt outcomes' (k + 1)) ∧
      ∀ i < d.candidates, ∃ mean mean' after after',
        (a.stateAt outcomes k).rawMeans[i]? = some mean ∧
        (b.stateAt outcomes' k).rawMeans[i]? = some mean' ∧
        (a.stateAt outcomes (k + 1)).rawMeans[i]? = some after ∧
        (b.stateAt outcomes' (k + 1)).rawMeans[i]? = some after' ∧
        Closing mean mean' after after' := by
  have ha := h.frame_sound (Nat.le_of_lt hk)
  have hb := h'.frame_sound (Nat.le_of_lt hk)
  have ha' := h.frame_sound hk
  have hb' := h'.frame_sound hk
  obtain ⟨o, -, hprocessed, hstate⟩ := h.processed_at hk
  obtain ⟨o', -, hprocessed', hstate'⟩ := h'.processed_at hk
  have hheard := hprocessed.toHeard
  have hheard' := hprocessed'.toHeard
  rw [← hstate] at hheard
  rw [← hstate'] at hheard'
  obtain ⟨hfar, hnear⟩ := (h.joined h' hjoined hk).histories_eq ha' hb' hpast
  have hbuffers := sameBuffers_of_histories ha hb ha' hb' hheard hheard' hfar hnear
  exact ⟨hbuffers, fun i hi => hbuffers.closing ha hb ha' hb' hheard hheard' hi⟩

end Courses

/-- Whatever two estimators of the same dimensions have heard before, common frames make their
buffers equal once every slot has been filled anew, and from then on bring their means no further
apart. -/
theorem run_forgets (ha : Reachable d a) (hb : Reachable d b) (frames : List Frame) :
    ∃ outcomes outcomes', a.run (frames.map .frame) = .ok outcomes ∧
      b.run (frames.map .frame) = .ok outcomes' ∧
      outcomes.length = frames.length ∧ outcomes'.length = frames.length ∧
      ∀ k < frames.length, max (d.maxDelay + d.lookahead) (d.lookahead + 1) ≤ k + 1 →
        SameBuffers (a.stateAt outcomes (k + 1)) (b.stateAt outcomes' (k + 1)) ∧
        ∀ i < d.maxDelay + d.lookahead, ∃ mean mean' after after',
          (a.stateAt outcomes k).means[i]?.map Q9.raw = some mean ∧
          (b.stateAt outcomes' k).means[i]?.map Q9.raw = some mean' ∧
          (a.stateAt outcomes (k + 1)).means[i]?.map Q9.raw = some after ∧
          (b.stateAt outcomes' (k + 1)).means[i]?.map Q9.raw = some after' ∧
          Closing mean mean' after after' := by
  obtain ⟨outcomes, hrun, hcourse⟩ := ha.run_frames frames
  obtain ⟨outcomes', hrun', hcourse'⟩ := hb.run_frames frames
  refine ⟨outcomes, outcomes', hrun, hrun', hcourse.frames_length, hcourse'.frames_length, ?_⟩
  intro k hk hpast
  simp only [← List.getElem?_map]
  exact hcourse.forgets hcourse' (ha.joined hb) hk hpast

/-- Three slots of the near end and two of the far end: the pasts still show after two common frames
and no longer after three. -/
theorem run_forgets_third_frame :
    ∃ a b outcomes outcomes', Reachable ⟨0, 2⟩ a ∧ Reachable ⟨0, 2⟩ b ∧
      a.run ([⟨0xFF, 1⟩, ⟨0xF, 2⟩, ⟨0xFF, 3⟩].map .frame) = .ok outcomes ∧
      b.run ([⟨0xFF, 1⟩, ⟨0xF, 2⟩, ⟨0xFF, 3⟩].map .frame) = .ok outcomes' ∧
      (a.stateAt outcomes 2).nearHistory ≠ (b.stateAt outcomes' 2).nearHistory ∧
      SameBuffers (a.stateAt outcomes 3) (b.stateAt outcomes' 3) ∧
      ∃ mean mean' after after',
        (a.stateAt outcomes 2).means[0]?.map Q9.raw = some mean ∧
        (b.stateAt outcomes' 2).means[0]?.map Q9.raw = some mean' ∧
        (a.stateAt outcomes 3).means[0]?.map Q9.raw = some after ∧
        (b.stateAt outcomes' 3).means[0]?.map Q9.raw = some after' ∧
        Closing mean mean' after after' := by
  obtain ⟨past, hpast, ha⟩ := Reachable.of_fresh (d := ⟨0, 2⟩) (by decide)
    (List.replicate 40 (.frame ⟨0xFFFFFFFF, 0xFFFFFFFF⟩))
  obtain ⟨past', hpast', hb⟩ := Reachable.of_fresh (d := ⟨0, 2⟩) (by decide)
    [.frame ⟨0xFFFFFFFF, 0xFFFFFFFF⟩, .reset, .frame ⟨1, 2⟩]
  obtain ⟨outcomes, outcomes', hrun, hrun', -, -, h⟩ :=
    run_forgets ha hb [⟨0xFF, 1⟩, ⟨0xF, 2⟩, ⟨0xFF, 3⟩]
  obtain ⟨hbuffers, hclosing⟩ := h 2 (by decide) (by decide)
  refine ⟨_, _, outcomes, outcomes', ha, hb, hrun, hrun', ?_, hbuffers, hclosing 0 (by decide)⟩
  rw [outcomes_eq hrun, outcomes_eq hrun', outcomes_eq hpast, outcomes_eq hpast']
  decide +kernel

end Estimator
end EchoDelay
