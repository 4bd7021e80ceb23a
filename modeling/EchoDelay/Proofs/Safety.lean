import EchoDelay.Estimator.Reading
import EchoDelay.Proofs.Run

/-!
# Safety

Whatever commands an estimator is given, no step of it faults, its buffers keep the sizes that its
dimensions ask for, and its delay is the one it returned last and can be read without the lookahead.
-/
namespace EchoDelay.Estimator

/-- The delay returned by the last frame, which a reset takes back to none. -/
def lastReturned (before : Option Nat) : List Command → List Outcome → Option Nat
  | .frame _ :: commands, o :: outcomes => lastReturned o.delay commands outcomes
  | .reset :: commands, _ :: outcomes => lastReturned none commands outcomes
  | _, _ => before

/-- The representation of an estimator of given dimensions. -/
structure WellFormed (d : Dimensions) (e : Estimator) : Prop where
  means_size : d.historySize = .ok e.means.length
  distances_size : d.historySize = .ok e.distances.length
  farBitCounts_size : d.historySize = .ok e.farBitCounts.size
  farHistory_size : d.historySize = .ok e.farHistory.size
  nearHistory_size : d.nearHistorySize = .ok e.nearHistory.size
  farBitCounts_eq : ∀ i : Nat,
    e.farBitCounts.slots[i]? = e.farHistory.slots[i]?.map Spectrum.bitCount
  lastDelay_lt : ∀ candidate ∈ e.lastDelay, candidate < e.means.length

variable {d : Dimensions} {e : Estimator}

theorem Sound.wellFormed (h : Sound d e) (ha : d.Accepted) : WellFormed d e where
  means_size := by rw [ha.historySize_eq, h.means_length]
  distances_size := by rw [ha.historySize_eq, h.distances_length]
  farBitCounts_size := by rw [ha.historySize_eq, h.farBitCounts_size]
  farHistory_size := by rw [ha.historySize_eq, h.farHistory_size]
  nearHistory_size := by rw [ha.nearHistorySize_eq, h.nearHistory_size]
  farBitCounts_eq := by
    intro i
    rw [h.farBitCounts_eq, List.getElem?_map]
  lastDelay_lt := by
    rw [h.means_length]
    exact h.lastDelay_lt

theorem lastDelay_after (h : Sound d e) (ha : d.Accepted) {commands : List Command}
    {outcomes : List Outcome} (hrun : e.run commands = .ok outcomes) :
    (e.after outcomes).lastDelay = lastReturned e.lastDelay commands outcomes := by
  induction commands generalizing e outcomes with
  | nil =>
    obtain rfl := Except.ok.inj hrun
    rfl
  | cons command commands ih =>
    obtain ⟨o, rest, hstep, hrest, rfl⟩ := run_cons_eq_ok.mp hrun
    obtain ⟨o', hstep', hstepped, hsound⟩ := h.step_eq ha command
    obtain rfl := Except.ok.inj (hstep.symm.trans hstep')
    rw [after_cons, ih hsound hrest]
    cases command with
    | frame frame => rw [lastReturned, hstepped.delay_eq]
    | reset =>
      have hnone : o.estimator.lastDelay = none := by rw [hstepped]; rfl
      rw [lastReturned, hnone]

/-- Accepted sizes are offsets, so the subtraction of the lookahead is exact. -/
theorem compensatedDelay_eq (h : Sound d e) (ha : d.Accepted) :
    e.compensatedDelay = .ok (e.lastDelay.map fun delay => (delay : Int) - d.lookahead) := by
  have hfar := ha.far_fits
  have hnear := ha.near_fits
  cases hlast : e.lastDelay with
  | none =>
    rw [compensatedDelay, hlast]
    rfl
  | some delay =>
    have hdelay := h.lastDelay_lt delay hlast
    rw [offsetLimit] at hfar hnear
    have hexact : checkedOffset .subtract ((delay : Int) - d.lookahead) =
        .ok ((delay : Int) - d.lookahead) :=
      if_pos (by rw [offsetLimit]; omega)
    rw [compensatedDelay, hlast, h.dimensions_eq]
    change (checkedOffset .subtract (offsetOfSize delay - offsetOfSize d.lookahead) >>= _) = _
    rw [offsetOfSize_of_lt (by rw [offsetLimit]; omega),
      offsetOfSize_of_lt (by rw [offsetLimit]; omega), hexact]
    rfl

/-- No sequence of commands makes an estimator fault or breaks its representation. -/
theorem run_wellFormed (he : (create d).value = .ok e) (commands : List Command) :
    ∃ outcomes, e.run commands = .ok outcomes ∧ outcomes.length = commands.length ∧
      WellFormed d (e.after outcomes) ∧
      (e.after outcomes).lastDelay = lastReturned none commands outcomes ∧
      (e.after outcomes).compensatedDelay =
        .ok ((e.after outcomes).lastDelay.map fun delay => (delay : Int) - d.lookahead) ∧
      ∀ delay ∈ (e.after outcomes).lastDelay,
        -(d.lookahead : Int) ≤ (delay : Int) - d.lookahead ∧
          (delay : Int) - d.lookahead < d.maxDelay := by
  obtain ⟨ha, rfl⟩ := create_value_eq he
  obtain ⟨outcomes, hrun, hcourse⟩ := (sound_fresh ha).run_eq ha commands
  have hsound := hcourse.sound_after
  refine ⟨outcomes, hrun, hcourse.length_eq, hsound.wellFormed ha,
    lastDelay_after (sound_fresh ha) ha hrun, compensatedDelay_eq hsound ha, ?_⟩
  intro delay hdelay
  have hlt := hsound.lastDelay_lt delay hdelay
  rw [Dimensions.candidates] at hlt
  omega

/-- A near end that is one frame ahead of the far end, found after a reset. -/
theorem run_wellFormed_ahead :
    ∃ e outcomes, (create ⟨1, 1⟩).value = .ok e ∧
      e.run (.frame ⟨1, 1⟩ :: .reset ::
        (List.replicate 10 [⟨0xFFFFFFFF, 0⟩, ⟨0, 0xFFFFFFFF⟩]).flatten.map .frame) =
        .ok outcomes ∧
      WellFormed ⟨1, 1⟩ (e.after outcomes) ∧
      (e.after outcomes).compensatedDelay = .ok (some (-1)) := by
  have he : (create ⟨1, 1⟩).value = .ok (fresh ⟨1, 1⟩ (by decide)) := by
    rw [create_fresh]
  obtain ⟨outcomes, hrun, -, hwellFormed, -, hdelay, -⟩ := run_wellFormed he (.frame ⟨1, 1⟩ ::
    .reset :: (List.replicate 10 [⟨0xFFFFFFFF, 0⟩, ⟨0, 0xFFFFFFFF⟩]).flatten.map .frame)
  refine ⟨_, outcomes, he, hrun, hwellFormed, ?_⟩
  rw [hdelay, outcomes_eq hrun]
  decide +kernel

end EchoDelay.Estimator
