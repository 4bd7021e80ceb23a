import EchoDelay.Proofs.Acceptance
import EchoDelay.Proofs.Recovery

/-!
# The evidence behind a report

Candidates that have met no far end keep the initial mean and compete with it. Those that have met
one are the first ones up to some age, so a candidate without evidence can only lead when everything
that was heard has risen above 20.0: then the first candidate not heard yet is reported.
-/
namespace EchoDelay.Estimator

/-- Candidate `c` was heard on one of the frames with these outcomes. -/
def EverHeard (c : Nat) (outcomes : List Outcome) : Prop := ∃ o ∈ outcomes, o.estimator.Hears c

instance (c : Nat) (outcomes : List Outcome) : Decidable (EverHeard c outcomes) :=
  inferInstanceAs (Decidable (∃ o ∈ outcomes, _))

theorem EverHeard.mono {c j k : Nat} {outcomes : List Outcome} (h : EverHeard c (outcomes.take j))
    (hjk : j ≤ k) : EverHeard c (outcomes.take k) := by
  obtain ⟨o, ho, hhears⟩ := h
  exact ⟨o, (List.take_sublist_take_left hjk).subset ho, hhears⟩

/-- After `k` frames candidate `c` leads by its initial mean alone. -/
structure LeadsUnheard (e : Estimator) (outcomes : List Outcome) (k c : Nat) : Prop where
  leader_eq : (e.stateAt outcomes k).leader = c
  mean_eq : (e.stateAt outcomes k).rawMeans[c]? = some 10240
  everHeard_iff : ∀ i < (e.stateAt outcomes k).rawMeans.length,
    EverHeard i (outcomes.take k) ↔ i < c
  heard_gt : ∀ i v, EverHeard i (outcomes.take k) →
    (e.stateAt outcomes k).rawMeans[i]? = some v → 10240 < v
  heard_gt_margin : ∃ i v, EverHeard i (outcomes.take k) ∧
    (e.stateAt outcomes k).rawMeans[i]? = some v ∧ 11264 < v

variable {d : Dimensions} {e : Estimator} {frames : List Frame} {outcomes : List Outcome}

theorem Follows.hears_iff {k c : Nat} (h : Follows d frames k e) (hc : c < d.candidates) :
    e.Hears c ↔ farAt frames (k - 1 - c) ≠ 0 := by
  simp [Hears, h.farHistory_getElem? hc]

namespace Course

section Heard

variable (h : Course d e (frames.map .frame) outcomes) (he : Started d e)
include h he

theorem everHeard_iff {k c : Nat} (hk : k ≤ frames.length) (hc : c < d.candidates) :
    EverHeard c (outcomes.take k) ↔ ∃ j < k, farAt frames (j - c) ≠ 0 := by
  have hage : ∀ j : Nat, ((j + 1 : Nat) : Int) - 1 - c = j - c := by
    intro j
    omega
  constructor
  · rintro ⟨o, ho, hhears⟩
    obtain ⟨j, hj, hlt, -, -, hstate⟩ := h.processed_of_mem_take ho
    rw [← hstate, (h.follows he hlt).hears_iff hc, hage] at hhears
    exact ⟨j, hj, hhears⟩
  · rintro ⟨j, hj, hfar⟩
    obtain ⟨o, ho, -, hstate⟩ := h.processed_at (by omega : j < frames.length)
    refine ⟨o, List.mem_of_getElem? ((List.getElem?_take_of_lt hj).trans ho), ?_⟩
    rwa [← hstate, (h.follows he (by omega)).hears_iff hc, hage]

/-- No far end is older than the run. -/
theorem not_everHeard_of_le {k c : Nat} (hk : k ≤ frames.length) (hc : c < d.candidates)
    (hkc : k ≤ c) : ¬ EverHeard c (outcomes.take k) := by
  rw [h.everHeard_iff he hk hc]
  rintro ⟨j, hj, hfar⟩
  exact hfar (farAt_of_neg (by omega))

/-- What candidate `c` met was met by every younger one before. -/
theorem everHeard_of_le {k i c : Nat} (hk : k ≤ frames.length) (hc : c < d.candidates)
    (hic : i ≤ c) (hheard : EverHeard c (outcomes.take k)) : EverHeard i (outcomes.take k) := by
  rw [h.everHeard_iff he hk hc] at hheard
  rw [h.everHeard_iff he hk (by omega)]
  obtain ⟨j, hj, hfar⟩ := hheard
  have hold : c ≤ j := by
    by_contra hyoung
    exact hfar (farAt_of_neg (by omega))
  have hage : ((j - (c - i) : Nat) : Int) - i = j - c := by omega
  exact ⟨j - (c - i), by omega, by rwa [hage]⟩

theorem rawMeans_of_not_everHeard {k c : Nat} (hk : k ≤ frames.length) (hc : c < d.candidates)
    (hunheard : ¬ EverHeard c (outcomes.take k)) :
    (e.stateAt outcomes k).rawMeans[c]? = some 10240 := by
  rw [h.everHeard_iff he hk hc] at hunheard
  have hsilent : ∀ j < k, farAt frames (j - c) = 0 := by
    intro j hj
    by_contra hfar
    exact hunheard ⟨j, hj, hfar⟩
  rw [(h.follows he hk).rawMeans_getElem? hc, streamMean_of_silent hsilent]

/-- A valley whose lowest point was never heard. -/
theorem leadsUnheard {k c : Nat} (hk : k ≤ frames.length)
    (hdistinct : (e.stateAt outcomes k).Distinct) (hleader : (e.stateAt outcomes k).leader = c)
    (hunheard : ¬ EverHeard c (outcomes.take k)) : LeadsUnheard e outcomes k c := by
  obtain ⟨ha, -⟩ := he.eq_fresh
  have hsound := h.frame_sound hk
  have hne := hsound.rawMeans_ne_nil ha
  have hc : c < d.candidates := by
    rw [← hleader, ← hsound.rawMeans_length]
    exact leader_lt hne
  have hmean := h.rawMeans_of_not_everHeard he hk hc hunheard
  have hlowest : (e.stateAt outcomes k).lowest = 10240 := by
    have hat := rawMeans_leader hne
    rw [hleader, hmean] at hat
    exact (Option.some.inj hat).symm
  have hiff : ∀ i < d.candidates, EverHeard i (outcomes.take k) ↔ i < c := by
    intro i hi
    constructor
    · intro hheard
      by_contra hge
      exact hunheard (h.everHeard_of_le he hk hi (by omega) hheard)
    · intro hlt
      by_contra hnot
      have habove := lowest_lt_of_lt_leader (by omega : i < (e.stateAt outcomes k).leader)
        (h.rawMeans_of_not_everHeard he hk hi hnot)
      omega
  refine ⟨hleader, hmean, by rwa [hsound.rawMeans_length], ?_, ?_⟩
  · intro i v hheard hv
    have hi := (List.getElem?_eq_some_iff.mp hv).1
    rw [hsound.rawMeans_length] at hi
    rw [← hlowest]
    exact lowest_lt_of_lt_leader (by have := (hiff i hi).mp hheard; omega) hv
  · obtain ⟨i, hi⟩ := List.getElem?_of_mem (highest_mem hne)
    rw [Distinct, hlowest] at hdistinct
    refine ⟨i, _, ?_, hi, by omega⟩
    by_contra hnot
    have hlt := (List.getElem?_eq_some_iff.mp hi).1
    rw [hsound.rawMeans_length] at hlt
    have hinitial := h.rawMeans_of_not_everHeard he hk hlt hnot
    rw [hi, Option.some.injEq] at hinitial
    omega

end Heard
end Course

/-- A near end that has no bin in common with the far end. -/
def opposed (n : Nat) : List Frame := List.replicate n ⟨0xFFFFFFFF, 0⟩

end EchoDelay.Estimator
