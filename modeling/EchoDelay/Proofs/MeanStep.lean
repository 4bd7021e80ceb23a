import EchoDelay.Proofs.Smoothing

/-!
# One step of a mean

A step of a mean toward a target is given for all 32-bit numbers and all numbers of places. It
faults for three reasons, in the order in which they are looked at: too many places, a gap that does
not fit, a gap that fits and has no magnitude. In every other case the mean moves by the gap over a
power of two, truncated, and the last addition cannot fault.
-/
namespace EchoDelay

/-- A truncated quotient vanishes only below its scale. -/
theorem tdiv_eq_zero_iff {gap scale : Int} (hs : 0 < scale) :
    gap.tdiv scale = 0 ↔ |gap| < scale := by
  rw [← Int.natAbs_eq_zero, Int.natAbs_tdiv, abs_lt]
  change gap.natAbs / scale.natAbs = 0 ↔ _
  rw [Nat.div_eq_zero_iff]
  omega

namespace Q9

/-- Why a step from the mean to the target has no result. -/
inductive StepFault (mean target : Q9) (shifts : Nat) : Fault → Prop
  | places (h : 32 ≤ shifts) : StepFault mean target shifts .shiftRange
  | gap (hs : shifts < 32)
      (h : target.raw - mean.raw < -2147483648 ∨ 2147483647 < target.raw - mean.raw) :
      StepFault mean target shifts (.overflow .subtract)
  /-- The least number fits, but its negation does not. -/
  | magnitude (hs : shifts < 32) (h : target.raw - mean.raw = -2147483648) :
      StepFault mean target shifts (.overflow .negate)

variable {mean target : Q9} {shifts : Nat}

theorem shiftTowardZero_least {a : Q9} (places : Nat) (h : a.raw = -2147483648) :
    a.shiftTowardZero places = .error (.overflow .negate) := by
  have hneg : a.neg = .error (.overflow .negate) := dif_neg (by omega)
  rw [shiftTowardZero, if_pos (by omega), hneg]
  rfl

theorem StepFault.smoothToward_eq {fault : Fault} (h : StepFault mean target shifts fault) :
    mean.smoothToward target shifts = .error fault := by
  cases h with
  | places h => exact if_pos h
  | gap hs h =>
    have hgap : target.sub mean = .error (.overflow .subtract) := dif_neg (by omega)
    rw [smoothToward, if_neg (by omega), hgap]
    rfl
  | magnitude hs h =>
    have hgap := sub_eq_ok target mean (by omega) (by omega)
    rw [smoothToward, if_neg (by omega), hgap]
    change (shiftTowardZero _ shifts >>= _) = _
    rw [shiftTowardZero_least shifts h]
    rfl

/-- What else is left is a gap with a magnitude. -/
theorem exists_stepFault_or (mean target : Q9) (shifts : Nat) :
    (∃ fault, StepFault mean target shifts fault) ∨
      shifts < 32 ∧ -2147483648 < target.raw - mean.raw ∧
        target.raw - mean.raw ≤ 2147483647 := by
  by_cases hshifts : 32 ≤ shifts
  · exact .inl ⟨_, .places hshifts⟩
  · by_cases hfits : target.raw - mean.raw < -2147483648 ∨ 2147483647 < target.raw - mean.raw
    · exact .inl ⟨_, .gap (by omega) hfits⟩
    · by_cases hleast : target.raw - mean.raw = -2147483648
      · exact .inl ⟨_, .magnitude (by omega) hleast⟩
      · exact .inr (by omega)

theorem smoothToward_eq_error_iff {fault : Fault} :
    mean.smoothToward target shifts = .error fault ↔ StepFault mean target shifts fault := by
  refine ⟨fun h => ?_, StepFault.smoothToward_eq⟩
  rcases exists_stepFault_or mean target shifts with ⟨fault', h'⟩ | ⟨hs, hl, hg⟩
  · obtain rfl := Except.error.inj (h.symm.trans h'.smoothToward_eq)
    exact h'
  · obtain ⟨next, hnext, -⟩ := mean.smoothToward_eq target shifts hs hl hg
    rw [hnext] at h
    cases h

/-- A step faults for one of the three reasons and then leaves the mean as it was, or it moves the
mean by a truncated part of the gap, which is not nothing from a gap of one whole part on. -/
theorem smoothToward_total (mean target : Q9) (shifts : Nat) :
    (∀ fault, mean.smoothToward target shifts = .error fault ↔
      StepFault mean target shifts fault) ∧
    (∀ fault, StepFault mean target shifts fault →
      smoothInPlace target shifts mean = .error fault mean) ∧
    ((∀ fault, ¬ StepFault mean target shifts fault) →
      ∃ next, mean.smoothToward target shifts = .ok next ∧
        smoothInPlace target shifts mean = .ok () next ∧
        next.raw = mean.raw + (target.raw - mean.raw).tdiv (2 ^ shifts) ∧
        min mean.raw target.raw ≤ next.raw ∧ next.raw ≤ max mean.raw target.raw ∧
        (next ≠ mean ↔ 2 ^ shifts ≤ |target.raw - mean.raw|)) := by
  have hscale : (0 : Int) < 2 ^ shifts := Int.pow_pos (by decide)
  refine ⟨fun fault => smoothToward_eq_error_iff, ?_, ?_⟩
  · intro fault hfault
    rw [smoothInPlace_eq, hfault.smoothToward_eq]
    rfl
  · intro hnone
    rcases exists_stepFault_or mean target shifts with ⟨fault, hfault⟩ | ⟨hs, hl, hg⟩
    · exact (hnone fault hfault).elim
    · obtain ⟨next, hnext, hraw⟩ := mean.smoothToward_eq target shifts hs hl hg
      have hbetween := add_tdiv_between mean.raw target.raw hscale
      refine ⟨next, hnext, ?_, hraw, by omega, by omega, ?_⟩
      · rw [smoothInPlace_eq, hnext]
        rfl
      · rw [← not_lt, ← tdiv_eq_zero_iff hscale, not_iff_not, ← raw_injective.eq_iff, hraw]
        omega

/-- A gap of the least number survives the subtraction and not the negation. -/
example : smoothInPlace (.wrap (-1073741824)) 7 (.wrap 1073741824) =
    .error (.overflow .negate) (.wrap 1073741824) := rfl

end Q9
end EchoDelay
