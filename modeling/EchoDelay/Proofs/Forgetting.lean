import EchoDelay.Proofs.Run

/-!
# What an estimator forgets

A reset leaves nothing of what was heard before it. The estimator equals a new one in every buffer,
both thresholds and the delay, so whatever it is given next leads to the same outcomes.
-/
namespace EchoDelay.Estimator

variable {d : Dimensions} {e : Estimator}

/-- A reset reports nothing, and what follows it is a run of a new estimator. -/
theorem run_after_reset (he : (create d).value = .ok e) (past future : List Command) :
    ∃ before after, e.run past = .ok before ∧ before.length = past.length ∧
      (e.after before).reset = e ∧
      e.run future = .ok after ∧ after.length = future.length ∧
      e.run (past ++ .reset :: future) = .ok (before ++ ⟨e, none, []⟩ :: after) := by
  obtain ⟨ha, rfl⟩ := create_value_eq he
  obtain ⟨before, hbefore, hpast⟩ := (sound_fresh ha).run_eq ha past
  obtain ⟨after, hafter, hfuture⟩ := (sound_fresh ha).run_eq ha future
  have hreset : ((fresh d ha).after before).reset = fresh d ha := hpast.sound_after.reset_eq ha
  have hstep : ((fresh d ha).after before).step .reset = .ok ⟨fresh d ha, none, []⟩ := by
    rw [step, hreset]
    rfl
  refine ⟨before, after, hbefore, hpast.length_eq, hreset, hafter, hfuture.length_eq, ?_⟩
  apply run_append_eq_ok hbefore
  exact run_cons_eq_ok.mpr ⟨_, after, hstep, hafter, rfl⟩

/-- A delay of 0, found behind a lookahead, and every spectrum in the buffers are forgotten. -/
theorem run_after_reset_ahead :
    ∃ e before after, (create ⟨1, 1⟩).value = .ok e ∧
      e.run ((List.replicate 10 [⟨0xFFFFFFFF, 0⟩, ⟨0, 0xFFFFFFFF⟩]).flatten.map .frame) =
        .ok before ∧
      (e.after before).lastDelay = some 0 ∧ (e.after before).nearHistory.slots = [0xFFFFFFFF, 0] ∧
      (e.after before).reset = e ∧
      e.run ((List.replicate 10 [⟨0xFFFFFFFF, 0⟩, ⟨0, 0xFFFFFFFF⟩]).flatten.map .frame ++
        .reset :: [.frame ⟨1, 1⟩]) = .ok (before ++ ⟨e, none, []⟩ :: after) := by
  have he : (create ⟨1, 1⟩).value = .ok (fresh ⟨1, 1⟩ (by decide)) := by
    rw [create_fresh]
  obtain ⟨before, after, hbefore, -, hreset, -, -, hrun⟩ := run_after_reset he
    ((List.replicate 10 [⟨0xFFFFFFFF, 0⟩, ⟨0, 0xFFFFFFFF⟩]).flatten.map .frame) [.frame ⟨1, 1⟩]
  have houtcomes := outcomes_eq hbefore
  refine ⟨_, before, after, he, hbefore, ?_, ?_, hreset, hrun⟩
  · rw [houtcomes]
    decide +kernel
  · rw [houtcomes]
    decide +kernel

end EchoDelay.Estimator
