import EchoDelay.Proofs.Recovery

/-!
# Locking in on a candidate

A level parts one candidate from the others if its mean alone lies below. Means never cross a level
that their targets do not cross, however fast each of them adapts. As long as the distances are
parted by the same level, the candidate therefore leads alone, and the delay can move nowhere else.
-/
namespace EchoDelay.Estimator

/-- Of all means, that of candidate `c` alone is below the level. -/
def PartsMeans (level c : Nat) (e : Estimator) : Prop :=
  ∀ i : Nat, ∀ mean ∈ e.rawMeans[i]?, mean < 512 * level ↔ i = c

/-- Of all candidates with a far end, candidate `c` alone has its distance below the level. -/
def PartsDistances (level c : Nat) (e : Estimator) : Prop :=
  ∀ i : Nat, e.Hears i → ∀ distance ∈ e.distances[i]?, distance < level ↔ i = c

/-- Candidate `c` has a lower mean than every other one. -/
def LeadsAlone (c : Nat) (e : Estimator) : Prop :=
  ∃ own, e.rawMeans[c]? = some own ∧ ∀ (i : Nat) v, i ≠ c → e.rawMeans[i]? = some v → own < v

instance (level c : Nat) (e : Estimator) : Decidable (e.PartsMeans level c) :=
  decidable_of_iff (∀ i < e.rawMeans.length, ∀ mean ∈ e.rawMeans[i]?, mean < 512 * level ↔ i = c)
    ⟨fun h i mean hmean => h i (List.getElem?_eq_some_iff.mp hmean).1 mean hmean,
      fun h i _ => h i⟩

instance (level c : Nat) (e : Estimator) : Decidable (e.PartsDistances level c) :=
  decidable_of_iff (∀ i < e.distances.length, e.Hears i →
      ∀ distance ∈ e.distances[i]?, distance < level ↔ i = c)
    ⟨fun h i hhears distance hdistance =>
        h i (List.getElem?_eq_some_iff.mp hdistance).1 hhears distance hdistance,
      fun h i _ => h i⟩

variable {d : Dimensions} {e : Estimator} {level c : Nat}

theorem LeadsAlone.leader_eq (h : e.LeadsAlone c) : e.leader = c := by
  obtain ⟨own, hown, hlt⟩ := h
  exact (Estimator.leader_eq hown hlt).2

namespace PartsMeans

theorem leadsAlone (h : e.PartsMeans level c) (hc : c < e.rawMeans.length) : e.LeadsAlone c := by
  have hown := List.getElem?_eq_getElem hc
  refine ⟨_, hown, ?_⟩
  intro i v hi hv
  have hbelow := (h c _ hown).mpr rfl
  have habove := mt (h i v hv).mp hi
  omega

/-- A frame whose distances are parted by the level leaves every mean on its side of it. -/
theorem processed {frame : Frame} {o : Outcome} (h : e.PartsMeans level c) (hs : Sound d e)
    (hp : Processed e frame o) (hafter : Sound d o.estimator)
    (hdistances : o.estimator.PartsDistances level c) : o.estimator.PartsMeans level c := by
  intro i mean hmean
  obtain ⟨before, far, distance, hbefore, hfar, hdistance, rfl⟩ :=
    hs.mean_step hp.toHeard hafter hmean
  have hside := h i before hbefore
  by_cases hempty : far = 0
  · rwa [hempty, bitCount_zero, smoothedMean_empty]
  · have htarget := hdistances i ⟨far, hfar, hempty⟩ distance hdistance
    rwa [smoothedMean_lt_iff (hside.trans htarget.symm)]

end PartsMeans

namespace Course

variable {frames : List Frame} {outcomes : List Outcome}

/-- Once parted, the means stay so as long as the distances do. -/
theorem partsMeans (h : Course d e (frames.map .frame) outcomes) (hmeans : e.PartsMeans level c)
    {k : Nat} (hk : k ≤ frames.length)
    (hdistances : ∀ o ∈ outcomes.take k, o.estimator.PartsDistances level c) :
    (e.stateAt outcomes k).PartsMeans level c := by
  induction k with
  | zero => exact hmeans
  | succ k ih =>
    obtain ⟨o, ho, hprocessed, hstate⟩ := h.processed_at hk
    have hbefore := ih (by omega) fun o' ho' =>
      hdistances o' (List.take_subset_take_left outcomes (Nat.le_succ k) ho')
    have hmem : o ∈ outcomes.take (k + 1) :=
      List.mem_of_getElem? ((List.getElem?_take_of_lt (Nat.lt_succ_self k)).trans ho)
    have hafter := h.frame_sound hk
    rw [hstate] at hafter ⊢
    exact hbefore.processed (h.frame_sound (by omega)) hprocessed hafter (hdistances o hmem)

end Course

/-- From a state whose means are parted, candidate `c` leads alone for as long as the distances are
parted as well, and the delay moves to it at most and then stays. -/
theorem run_lockedIn (h : Reachable d e) (hc : c < d.maxDelay + d.lookahead)
    (hmeans : e.PartsMeans level c) (frames : List Frame) :
    ∃ outcomes, e.run (frames.map .frame) = .ok outcomes ∧ outcomes.length = frames.length ∧
      ∀ k ≤ frames.length, (∀ o ∈ outcomes.take k, o.estimator.PartsDistances level c) →
        (e.stateAt outcomes k).LeadsAlone c ∧
        ((e.stateAt outcomes k).lastDelay = e.lastDelay ∨
          (e.stateAt outcomes k).lastDelay = some c) ∧
        ∀ j ≤ k, (e.stateAt outcomes j).lastDelay = some c →
          (e.stateAt outcomes k).lastDelay = some c := by
  obtain ⟨outcomes, hrun, hcourse⟩ := h.run_frames frames
  refine ⟨outcomes, hrun, hcourse.frames_length, ?_⟩
  intro k hk hdistances
  have hleads : ∀ i ≤ k, (e.stateAt outcomes i).LeadsAlone c := by
    intro i hi
    apply (hcourse.partsMeans hmeans (hi.trans hk) ?_).leadsAlone
    · rw [(hcourse.frame_sound (hi.trans hk)).rawMeans_length]
      exact hc
    · exact fun o ho => hdistances o (List.take_subset_take_left outcomes hi ho)
  have hleader : ∀ j i, j < i → i ≤ k → (e.stateAt outcomes i).leader = c :=
    fun _ i _ hi => (hleads i hi).leader_eq
  exact ⟨hleads k le_rfl, hcourse.lastDelay_of_leader (Nat.zero_le k) hk (hleader 0),
    fun j hj hlast => hcourse.lastDelay_stays_of_leader hj hk (hleader j) hlast⟩

/-- Candidate 0 matches first and then candidate 1, until a level parts their means. -/
def overtaking : List Command :=
  (List.replicate 10 [⟨0xFFFFFFFF, 0xFFFFFFFF⟩, ⟨0, 0⟩]).flatten.map .frame ++
    (List.replicate 13 [⟨0xFFFFFFFF, 0⟩, ⟨0, 0xFFFFFFFF⟩]).flatten.map .frame

/-- The delay is still that of candidate 0, and moves to candidate 1 once. -/
theorem run_lockedIn_overtaking :
    ∃ e outcomes, Reachable ⟨2, 0⟩ e ∧ e.PartsMeans 19 1 ∧ e.lastDelay = some 0 ∧
      e.run ((List.replicate 10 [⟨0xFFFFFFFF, 0⟩, ⟨0, 0xFFFFFFFF⟩]).flatten.map .frame) =
        .ok outcomes ∧
      (∀ o ∈ outcomes, o.estimator.PartsDistances 19 1) ∧
      (e.stateAt outcomes 20).LeadsAlone 1 ∧
      (e.stateAt outcomes 9).lastDelay = some 0 ∧ (e.stateAt outcomes 20).lastDelay = some 1 := by
  obtain ⟨past, hpast, h⟩ := Reachable.of_fresh (d := ⟨2, 0⟩) (by decide) overtaking
  have hmeans : ((fresh ⟨2, 0⟩ (by decide)).after past).PartsMeans 19 1 := by
    rw [outcomes_eq hpast]
    decide +kernel
  have hlast : ((fresh ⟨2, 0⟩ (by decide)).after past).lastDelay = some 0 := by
    rw [outcomes_eq hpast]
    decide +kernel
  obtain ⟨outcomes, hrun, -, hlocked⟩ := run_lockedIn h (by decide : 1 < 2) hmeans
    (List.replicate 10 [⟨0xFFFFFFFF, 0⟩, ⟨0, 0xFFFFFFFF⟩]).flatten
  have hdistances : ∀ o ∈ outcomes, o.estimator.PartsDistances 19 1 := by
    rw [outcomes_eq hrun, outcomes_eq hpast]
    decide +kernel
  have hmoved :
      (((fresh ⟨2, 0⟩ (by decide)).after past).stateAt outcomes 10).lastDelay = some 1 := by
    rw [outcomes_eq hrun, outcomes_eq hpast]
    decide +kernel
  obtain ⟨hleads, -, hstays⟩ := hlocked 20 (by decide) fun o ho =>
    hdistances o (List.mem_of_mem_take ho)
  refine ⟨_, outcomes, h, hmeans, hlast, hrun, hdistances, hleads, ?_,
    hstays 10 (by decide) hmoved⟩
  rw [outcomes_eq hrun, outcomes_eq hpast]
  decide +kernel

end EchoDelay.Estimator
