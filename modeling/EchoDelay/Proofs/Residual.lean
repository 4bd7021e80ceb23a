import EchoDelay.Proofs.MeanStep
import Mathlib.Logic.Function.Iterate

/-!
# The residual of a running mean

A mean that is moved toward one target again and again comes to rest before it gets there, because a
truncated part of the gap is nothing as soon as the gap is less than one whole part. No step leads
into that last stretch, so every mean from outside of it rests at its edge, on the side from which
it came. Where a mean will rest is therefore the same before and after a step.
-/
namespace EchoDelay

section Part

variable {gap scale : Int}

/-- A part of the gap is at least one raw step and leaves the last stretch to go. -/
theorem tdiv_leaves (hs : 0 < scale) (h : scale ≤ gap) :
    1 ≤ gap.tdiv scale ∧ gap.tdiv scale ≤ gap - (scale - 1) := by
  have hsome : gap.tdiv scale ≠ 0 := by
    rw [Ne, tdiv_eq_zero_iff hs, abs_lt]
    omega
  have hpart := tdiv_nonneg_le hs (by omega : 0 ≤ gap)
  have hspread := tdiv_sub_tdiv_le hs h
  rw [Int.tdiv_self (by omega)] at hspread
  omega

theorem tdiv_leaves_neg (hs : 0 < scale) (h : gap ≤ -scale) :
    gap + (scale - 1) ≤ gap.tdiv scale ∧ gap.tdiv scale ≤ -1 := by
  have hleaves := tdiv_leaves hs (by omega : scale ≤ -gap)
  rw [Int.neg_tdiv] at hleaves
  omega

end Part

/-- A mean after a step toward the target, in raw steps. -/
def approach (target : Int) (shifts : Nat) (mean : Int) : Int :=
  mean + (target - mean).tdiv (2 ^ shifts)

/-- Where a mean comes to rest: where it is, if the gap is less than one whole part, or else one raw
step short of a whole part before the target. -/
def restingMean (target : Int) (shifts : Nat) (mean : Int) : Int :=
  if |target - mean| < 2 ^ shifts then mean
  else if mean < target then target - (2 ^ shifts - 1)
  else target + (2 ^ shifts - 1)

section Approach

variable {target mean : Int} {shifts : Nat}

theorem approach_of_near (h : |target - mean| < 2 ^ shifts) :
    approach target shifts mean = mean := by
  rw [approach, (tdiv_eq_zero_iff (Int.pow_pos (by decide))).mpr h, add_zero]

theorem restingMean_of_near (h : |target - mean| < 2 ^ shifts) :
    restingMean target shifts mean = mean := if_pos h

/-- From afar a mean moves by at least one raw step, and not into the last stretch. -/
theorem approach_of_far (h : 2 ^ shifts ≤ |target - mean|) :
    mean < target ∧ mean < approach target shifts mean ∧
        approach target shifts mean ≤ target - (2 ^ shifts - 1) ∨
      target < mean ∧ approach target shifts mean < mean ∧
        target + (2 ^ shifts - 1) ≤ approach target shifts mean := by
  have hscale : (0 : Int) < 2 ^ shifts := Int.pow_pos (by decide)
  rw [approach]
  rcases le_abs.mp h with hbelow | habove
  · have hpart := tdiv_leaves hscale hbelow
    exact .inl (by omega)
  · have hpart := tdiv_leaves_neg hscale (by omega : target - mean ≤ -2 ^ shifts)
    exact .inr (by omega)

theorem approach_closer (h : 2 ^ shifts ≤ |target - mean|) :
    |target - approach target shifts mean| < |target - mean| := by
  have hscale : (0 : Int) < 2 ^ shifts := Int.pow_pos (by decide)
  rcases approach_of_far h with ⟨hside, hmoved, hleft⟩ | ⟨hside, hmoved, hleft⟩
  · rw [abs_of_nonneg (by omega), abs_of_nonneg (by omega)]
    omega
  · rw [abs_of_nonpos (by omega), abs_of_nonpos (by omega)]
    omega

/-- The invariant of the steps toward one target. -/
theorem restingMean_approach (target : Int) (shifts : Nat) (mean : Int) :
    restingMean target shifts (approach target shifts mean) = restingMean target shifts mean := by
  have hscale : (0 : Int) < 2 ^ shifts := Int.pow_pos (by decide)
  rcases lt_or_ge |target - mean| (2 ^ shifts) with hnear | hfar
  · rw [approach_of_near hnear]
  · -- a mean that a step has brought near lies at the edge of the last stretch
    rw [restingMean, restingMean, if_neg (not_lt.mpr hfar)]
    simp only [abs_lt]
    rcases approach_of_far hfar with ⟨hside, hmoved, hleft⟩ | ⟨hside, hmoved, hleft⟩
    · split_ifs <;> omega
    · split_ifs <;> omega

theorem restingMean_iterate (n : Nat) :
    restingMean target shifts ((approach target shifts)^[n] mean) =
      restingMean target shifts mean := by
  induction n with
  | zero => rfl
  | succ n ih => rw [Function.iterate_succ_apply', restingMean_approach, ih]

theorem approach_iterate_between (target : Int) (shifts : Nat) (mean : Int) (n : Nat) :
    min mean target ≤ (approach target shifts)^[n] mean ∧
      (approach target shifts)^[n] mean ≤ max mean target := by
  induction n with
  | zero => exact ⟨min_le_left mean target, le_max_left mean target⟩
  | succ n ih =>
    rw [Function.iterate_succ_apply']
    have hstep := add_tdiv_between ((approach target shifts)^[n] mean) target
      (Int.pow_pos (by decide) : (0 : Int) < 2 ^ shifts)
    rw [← approach] at hstep
    omega

/-- Near the target nothing changes any more; until then each step uses up some of the gap. -/
theorem approach_iterate_near_or (target : Int) (shifts : Nat) (mean : Int) (n : Nat) :
    |target - (approach target shifts)^[n] mean| < 2 ^ shifts ∨
      |target - (approach target shifts)^[n] mean| + n ≤ |target - mean| := by
  induction n with
  | zero => exact .inr (by simp)
  | succ n ih =>
    rw [Function.iterate_succ_apply']
    rcases lt_or_ge |target - (approach target shifts)^[n] mean| (2 ^ shifts) with hnear | hfar
    · rw [approach_of_near hnear]
      exact .inl hnear
    · have hcloser := approach_closer hfar
      have hused := ih.resolve_left (not_lt.mpr hfar)
      exact .inr (by omega)

/-- There are no more steps to take than there are raw steps to go. -/
theorem approach_iterate_near (target : Int) (shifts : Nat) (mean : Int) :
    |target - (approach target shifts)^[(target - mean).natAbs] mean| < 2 ^ shifts := by
  have hgap : ((target - mean).natAbs : Int) = |target - mean| := Int.natCast_natAbs _
  rcases approach_iterate_near_or target shifts mean (target - mean).natAbs with hnear | hused
  · exact hnear
  · calc |target - (approach target shifts)^[(target - mean).natAbs] mean| ≤ 0 := by omega
      _ < 2 ^ shifts := Int.pow_pos (by decide)

/-- The first mean near the target. -/
theorem exists_first_near (target : Int) (shifts : Nat) (mean : Int) :
    ∃ steps : Nat, (steps : Int) ≤ |target - mean| ∧
      |target - (approach target shifts)^[steps] mean| < 2 ^ shifts ∧
      ∀ n < steps, 2 ^ shifts ≤ |target - (approach target shifts)^[n] mean| := by
  have hlast := approach_iterate_near target shifts mean
  have hnear : ∃ n, |target - (approach target shifts)^[n] mean| < 2 ^ shifts := ⟨_, hlast⟩
  refine ⟨Nat.find hnear, ?_, Nat.find_spec hnear, ?_⟩
  · rw [← Int.natCast_natAbs]
    exact_mod_cast Nat.find_min' hnear hlast
  · intro n hn
    exact not_lt.mp (Nat.find_min hnear hn)

theorem approach_iterate_of_near {steps n : Nat} (hn : steps ≤ n)
    (h : |target - (approach target shifts)^[steps] mean| < 2 ^ shifts) :
    (approach target shifts)^[n] mean = (approach target shifts)^[steps] mean := by
  induction n, hn using Nat.le_induction with
  | base => rfl
  | succ n hn ih => rw [Function.iterate_succ_apply', ih, approach_of_near h]

end Approach

namespace Q9

/-- The mean after several steps toward one target. -/
def smoothTowardTimes (mean target : Q9) (shifts : Nat) : Nat → Except Fault Q9
  | 0 => .ok mean
  | n + 1 => do
    let before ← mean.smoothTowardTimes target shifts n
    before.smoothToward target shifts

/-- The means stay within the gap, so no step faults. -/
theorem smoothTowardTimes_eq {mean target : Q9} {shifts : Nat} (hs : shifts < 32)
    (hgap : |target.raw - mean.raw| < 2147483648) (n : Nat) :
    ∃ r, mean.smoothTowardTimes target shifts n = .ok r ∧
      r.raw = (approach target.raw shifts)^[n] mean.raw := by
  rw [abs_lt] at hgap
  induction n with
  | zero => exact ⟨mean, rfl, rfl⟩
  | succ n ih =>
    obtain ⟨before, hbefore, hraw⟩ := ih
    have hbetween := approach_iterate_between target.raw shifts mean.raw n
    rw [← hraw] at hbetween
    obtain ⟨next, hnext, hnextRaw⟩ :=
      before.smoothToward_eq target shifts hs (by omega) (by omega)
    refine ⟨next, ?_, ?_⟩
    · rw [smoothTowardTimes, hbefore]
      exact hnext
    · rw [Function.iterate_succ_apply', ← hraw]
      exact hnextRaw

/-- Repeated steps toward one target never fault and never lead past it. Each brings the mean closer
until less than one whole part is left, and from then on the mean rests where it was known to rest
from the start. -/
theorem smoothTowardTimes_rests {mean target : Q9} {shifts : Nat} (hs : shifts < 32)
    (hgap : |target.raw - mean.raw| < 2147483648) :
    ∃ means : Nat → Q9, (∀ n, mean.smoothTowardTimes target shifts n = .ok (means n)) ∧
      (∀ n, min mean.raw target.raw ≤ (means n).raw ∧ (means n).raw ≤ max mean.raw target.raw) ∧
      ∃ steps : Nat, (steps : Int) ≤ |target.raw - mean.raw| ∧
        (∀ n < steps, 2 ^ shifts ≤ |target.raw - (means n).raw| ∧
          |target.raw - (means (n + 1)).raw| < |target.raw - (means n).raw|) ∧
        ∀ n, steps ≤ n → |target.raw - (means n).raw| < 2 ^ shifts ∧ means n = means steps ∧
          (means n).raw = restingMean target.raw shifts mean.raw := by
  choose means hmeans hraw using smoothTowardTimes_eq hs hgap
  obtain ⟨steps, hle, hnear, hfar⟩ := exists_first_near target.raw shifts mean.raw
  refine ⟨means, hmeans, fun n => ?_, steps, hle, fun n hn => ?_, fun n hn => ?_⟩
  · rw [hraw]
    exact approach_iterate_between _ _ _ n
  · rw [hraw, hraw, Function.iterate_succ_apply']
    exact ⟨hfar n hn, approach_closer (hfar n hn)⟩
  · have hrest : (means n).raw = (means steps).raw := by
      rw [hraw, hraw, approach_iterate_of_near hn hnear]
    refine ⟨?_, raw_injective hrest, ?_⟩
    · rw [hrest, hraw]
      exact hnear
    · rw [hrest, hraw, ← restingMean_of_near hnear, restingMean_iterate]

/-- From 20 down toward 0, in the largest parts that the estimator takes: 127 raw steps are left. -/
theorem smoothTowardTimes_rests_above :
    7 < 32 ∧ |zero.raw - (wrap 10240).raw| < 2147483648 ∧
      ∃ means : Nat → Q9, (∀ n, (wrap 10240).smoothTowardTimes zero 7 n = .ok (means n)) ∧
        ∃ steps, ∀ n, steps ≤ n → (means n).raw = 127 := by
  have hgap : |zero.raw - (wrap 10240).raw| < 2147483648 := by decide
  obtain ⟨means, hmeans, -, steps, -, -, hrest⟩ :=
    smoothTowardTimes_rests (by decide : 7 < 32) hgap
  exact ⟨by decide, hgap, means, hmeans, steps, fun n hn => (hrest n hn).2.2⟩

end Q9
end EchoDelay
