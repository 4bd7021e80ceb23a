import EchoDelay.Proofs.Agreement
import EchoDelay.Proofs.Safety
import EchoDelay.Proofs.Stream
import Mathlib.Data.List.Forall2

/-!
# The lookahead as a delay line

An estimator with a lookahead hears what one without it hears when the near end comes late by as
many frames and both have equally many candidates. The two go on in agreement from a start: the
delays they return are the same, and only the compensated ones differ, by the lookahead.
-/
namespace EchoDelay

/-- The far end as it is and the near end late by `lookahead` frames, silent until then. -/
def delayNear (lookahead : Nat) (frames : List Frame) : List Frame :=
  List.zipWith (fun frame near => ⟨frame.far, near⟩) frames
    (List.replicate lookahead 0 ++ frames.map Frame.near)

@[simp] theorem delayNear_length (lookahead : Nat) (frames : List Frame) :
    (delayNear lookahead frames).length = frames.length := by
  simp [delayNear]

theorem lateNear_getElem? (lookahead : Nat) {frames : List Frame} {k : Nat}
    (hk : k < frames.length) :
    (List.replicate lookahead 0 ++ frames.map Frame.near)[k]? =
      some (nearAt frames (k - lookahead)) := by
  by_cases hearly : k < lookahead
  · rw [nearAt_of_neg (by omega), List.getElem?_append_left (by simpa using hearly)]
    simp [hearly]
  · have hlate : (k : Int) - lookahead = (k - lookahead : Nat) := by omega
    have hframe := List.getElem?_eq_getElem (by omega : k - lookahead < frames.length)
    rw [hlate, nearAt_of_getElem? hframe, List.getElem?_append_right (by simpa using hearly)]
    simp [hframe]

theorem delayNear_getElem? (lookahead : Nat) {frames : List Frame} {k : Nat} {frame : Frame}
    (h : frames[k]? = some frame) :
    (delayNear lookahead frames)[k]? = some ⟨frame.far, nearAt frames (k - lookahead)⟩ := by
  have hk : k < frames.length := (List.getElem?_eq_some_iff.mp h).1
  simp [delayNear, List.getElem?_zipWith, h, lateNear_getElem? lookahead hk]

namespace Estimator

/-- An outcome with a lookahead and the one without it on the late near end. -/
structure Realigned (lookahead : Nat) (o late : Outcome) : Prop where
  delay_eq : o.delay = late.delay
  events_eq : o.events = late.events
  agrees : Agrees o.estimator late.estimator
  compensatedDelay_eq : ∃ delay, late.estimator.compensatedDelay = .ok delay ∧
    o.estimator.compensatedDelay = .ok (delay.map fun frames => frames - (lookahead : Int))

variable {maxDelay lookahead : Nat} {e late : Estimator} {frames : List Frame}

theorem agrees_fresh (ha : Dimensions.Accepted ⟨maxDelay, lookahead⟩)
    (hb : Dimensions.Accepted ⟨maxDelay + lookahead, 0⟩) : Agrees (fresh _ ha) (fresh _ hb) :=
  ⟨rfl, rfl, rfl, rfl, rfl, rfl⟩

/-- Only the first one subtracts a lookahead from the delay they share. -/
theorem Agrees.compensatedDelay_eq {d d' : Dimensions} (h : Agrees e late) (hs : Sound d e)
    (hlate : Sound d' late) (ha : d.Accepted) (hb : d'.Accepted) (hzero : d'.lookahead = 0) :
    ∃ delay, late.compensatedDelay = .ok delay ∧
      e.compensatedDelay = .ok (delay.map fun frames => frames - (d.lookahead : Int)) := by
  refine ⟨_, Estimator.compensatedDelay_eq hlate hb, ?_⟩
  rw [Estimator.compensatedDelay_eq hs ha, h.lastDelay_eq, hzero]
  simp

section Courses

variable {outcomes lateOutcomes : List Outcome}
  (h : Course ⟨maxDelay, lookahead⟩ e (frames.map .frame) outcomes)
  (hl : Course ⟨maxDelay + lookahead, 0⟩ late ((delayNear lookahead frames).map .frame)
    lateOutcomes)
  (he : Started ⟨maxDelay, lookahead⟩ e) (hlate : Started ⟨maxDelay + lookahead, 0⟩ late)
include h hl he hlate

/-- Both find the same near end due on every frame, held back by the one and late for the other. -/
theorem Course.due_eq {k : Nat} (hk : k < frames.length) :
    (e.stateAt outcomes k).due frames[k] = (late.stateAt lateOutcomes k).due
      ⟨frames[k].far, nearAt frames (k - lookahead)⟩ := by
  have hframe := List.getElem?_eq_getElem hk
  have hlateFrame := delayNear_getElem? lookahead hframe
  rw [(h.follows he (by omega)).due_eq (h.frame_sound (by omega)) hframe,
    (hl.follows hlate (by simp; omega)).due_eq (hl.frame_sound (by simp; omega)) hlateFrame]
  simp only [Nat.cast_zero, Int.sub_zero]
  rw [nearAt_of_getElem? hlateFrame]

theorem Course.agrees_succ {k : Nat} (hk : k < frames.length)
    (hagrees : Agrees (e.stateAt outcomes k) (late.stateAt lateOutcomes k)) :
    ∃ o o', outcomes[k]? = some o ∧ lateOutcomes[k]? = some o' ∧
      e.stateAt outcomes (k + 1) = o.estimator ∧
      late.stateAt lateOutcomes (k + 1) = o'.estimator ∧
      Agrees o.estimator o'.estimator ∧ o.delay = o'.delay ∧ o.events = o'.events := by
  obtain ⟨o, ho, hprocessed, hstate⟩ := h.processed_at hk
  obtain ⟨o', ho', hlateProcessed, hlateState⟩ :=
    hl.stepped k (.frame ⟨frames[k].far, nearAt frames (k - lookahead)⟩) (by
      rw [List.getElem?_map, delayNear_getElem? lookahead (List.getElem?_eq_getElem hk)]
      rfl)
  exact ⟨o, o', ho, ho', hstate, hlateState,
    hagrees.processed hprocessed hlateProcessed rfl (h.due_eq hl he hlate hk)⟩

theorem Course.agrees {k : Nat} (hk : k ≤ frames.length) :
    Agrees (e.stateAt outcomes k) (late.stateAt lateOutcomes k) := by
  induction k with
  | zero =>
    obtain ⟨ha, rfl⟩ := he.eq_fresh
    obtain ⟨hb, rfl⟩ := hlate.eq_fresh
    exact agrees_fresh ha hb
  | succ k ih =>
    obtain ⟨o, o', -, -, hstate, hlateState, hagrees, -⟩ :=
      h.agrees_succ hl he hlate hk (ih (by omega))
    rw [hstate, hlateState]
    exact hagrees

theorem Course.realigned {k : Nat} (hk : k < frames.length) :
    ∃ o o', outcomes[k]? = some o ∧ lateOutcomes[k]? = some o' ∧ Realigned lookahead o o' := by
  obtain ⟨ha, -⟩ := he.eq_fresh
  obtain ⟨hb, -⟩ := hlate.eq_fresh
  obtain ⟨o, o', ho, ho', hstate, hlateState, hagrees, hdelay, hevents⟩ :=
    h.agrees_succ hl he hlate hk (h.agrees hl he hlate (by omega))
  have hsound := h.frame_sound hk
  have hlateSound := hl.frame_sound (k := k + 1) (by simp; omega)
  rw [hstate] at hsound
  rw [hlateState] at hlateSound
  exact ⟨o, o', ho, ho', hdelay, hevents, hagrees,
    hagrees.compensatedDelay_eq hsound hlateSound ha hb rfl⟩

end Courses

/-- Frame by frame, the lookahead does what a late near end would do. -/
theorem run_delayNear (he : Started ⟨maxDelay, lookahead⟩ e)
    (hlate : Started ⟨maxDelay + lookahead, 0⟩ late) (frames : List Frame) :
    ∃ outcomes lateOutcomes, e.run (frames.map .frame) = .ok outcomes ∧
      late.run ((delayNear lookahead frames).map .frame) = .ok lateOutcomes ∧
      outcomes.length = frames.length ∧
      List.Forall₂ (Realigned lookahead) outcomes lateOutcomes := by
  obtain ⟨outcomes, hrun, hcourse⟩ := he.run_frames frames
  obtain ⟨lateOutcomes, hlateRun, hlateCourse⟩ := hlate.run_frames (delayNear lookahead frames)
  have hlength := hcourse.frames_length
  have hlateLength := hlateCourse.frames_length
  rw [delayNear_length] at hlateLength
  refine ⟨outcomes, lateOutcomes, hrun, hlateRun, hlength, ?_⟩
  apply List.forall₂_iff_get.mpr
  refine ⟨hlength.trans hlateLength.symm, ?_⟩
  intro k hk hk'
  obtain ⟨o, o', ho, ho', hrealigned⟩ := hcourse.realigned hlateCourse he hlate (hlength ▸ hk)
  rw [List.get_eq_getElem, List.get_eq_getElem, (List.getElem?_eq_some_iff.mp ho).2,
    (List.getElem?_eq_some_iff.mp ho').2]
  exact hrealigned

/-- A near end that leads by one frame: on the late one the far end leads no more. -/
theorem run_delayNear_ahead :
    ∃ e late outcomes lateOutcomes, Started ⟨1, 1⟩ e ∧ Started ⟨1 + 1, 0⟩ late ∧
      e.run ((List.replicate 10 [⟨0xFFFFFFFF, 0⟩, ⟨0, 0xFFFFFFFF⟩]).flatten.map .frame) =
        .ok outcomes ∧
      late.run ((delayNear 1 (List.replicate 10 [⟨0xFFFFFFFF, 0⟩, ⟨0, 0xFFFFFFFF⟩]).flatten).map
        .frame) = .ok lateOutcomes ∧
      List.Forall₂ (Realigned 1) outcomes lateOutcomes ∧
      (late.after lateOutcomes).compensatedDelay = .ok (some 0) := by
  have he := started_fresh (d := ⟨1, 1⟩) (by decide)
  have hlate := started_fresh (d := ⟨1 + 1, 0⟩) (by decide)
  obtain ⟨outcomes, lateOutcomes, hrun, hlateRun, -, hrealigned⟩ := run_delayNear he hlate
    (List.replicate 10 [⟨0xFFFFFFFF, 0⟩, ⟨0, 0xFFFFFFFF⟩]).flatten
  refine ⟨_, _, outcomes, lateOutcomes, he, hlate, hrun, hlateRun, hrealigned, ?_⟩
  rw [outcomes_eq hlateRun]
  decide +kernel

end Estimator
end EchoDelay
