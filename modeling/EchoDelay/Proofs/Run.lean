import EchoDelay.Proofs.Invariant

/-!
# Runs step by step

A run that starts within the invariant has an outcome for every command. It is read here as the
sequence of estimators between the commands, each of which is sound and comes from the one before
it by a single step.
-/
namespace EchoDelay.Estimator

/-- The estimator after the first `k` outcomes of a run. -/
def stateAt (e : Estimator) (outcomes : List Outcome) (k : Nat) : Estimator :=
  e.after (outcomes.take k)

@[simp] theorem stateAt_zero (e : Estimator) (outcomes : List Outcome) :
    e.stateAt outcomes 0 = e := rfl

theorem after_cons (e : Estimator) (o : Outcome) (outcomes : List Outcome) :
    e.after (o :: outcomes) = o.estimator.after outcomes := by
  cases outcomes with
  | nil => rfl
  | cons next outcomes => rw [after, after, List.getLast?_cons_cons, List.getLast?_cons]; rfl

@[simp] theorem stateAt_succ (e : Estimator) (o : Outcome) (outcomes : List Outcome) (k : Nat) :
    e.stateAt (o :: outcomes) (k + 1) = o.estimator.stateAt outcomes k := after_cons e o _

theorem stateAt_length (e : Estimator) (outcomes : List Outcome) :
    e.stateAt outcomes outcomes.length = e.after outcomes := by
  rw [stateAt, List.take_length]

theorem run_cons_eq_ok {e : Estimator} {command : Command} {commands : List Command}
    {outcomes : List Outcome} :
    e.run (command :: commands) = .ok outcomes ↔
      ∃ o rest, e.step command = .ok o ∧ o.estimator.run commands = .ok rest ∧
        outcomes = o :: rest := by
  simp only [run, bind_eq_ok_iff]
  constructor
  · rintro ⟨o, hstep, rest, hrun, houtcomes⟩
    exact ⟨o, rest, hstep, hrun, (Except.ok.inj houtcomes).symm⟩
  · rintro ⟨o, rest, hstep, hrun, rfl⟩
    exact ⟨o, hstep, rest, hrun, rfl⟩

theorem run_append_eq_ok {e : Estimator} {first second : List Command}
    {outcomes rest : List Outcome} (h : e.run first = .ok outcomes)
    (hrest : (e.after outcomes).run second = .ok rest) :
    e.run (first ++ second) = .ok (outcomes ++ rest) := by
  induction first generalizing e outcomes with
  | nil =>
    obtain rfl := Except.ok.inj h
    exact hrest
  | cons command first ih =>
    obtain ⟨o, outcomes, hstep, hrun, rfl⟩ := run_cons_eq_ok.mp h
    rw [after_cons] at hrest
    exact run_cons_eq_ok.mpr ⟨o, outcomes ++ rest, hstep, ih hrun hrest, rfl⟩

theorem after_append (e : Estimator) (outcomes rest : List Outcome) :
    e.after (outcomes ++ rest) = (e.after outcomes).after rest := by
  induction outcomes generalizing e with
  | nil => rfl
  | cons o outcomes ih => rw [List.cons_append, after_cons, after_cons, ih]

theorem outcomes_eq {e : Estimator} {commands : List Command} {outcomes : List Outcome}
    (h : e.run commands = .ok outcomes) : outcomes = (e.run commands).toOption.getD [] := by
  rw [h]
  rfl

/-- All that a command does to `e`. -/
def Stepped (e : Estimator) : Command → Outcome → Prop
  | .frame frame, o => Processed e frame o
  | .reset, o => o = e.reset.keep

/-- The outcomes of a run, of which each comes from the estimator left by those before it. -/
structure Course (d : Dimensions) (e : Estimator) (commands : List Command)
    (outcomes : List Outcome) : Prop where
  length_eq : outcomes.length = commands.length
  sound : ∀ k ≤ commands.length, Sound d (e.stateAt outcomes k)
  stepped : ∀ k command, commands[k]? = some command → ∃ o, outcomes[k]? = some o ∧
    Stepped (e.stateAt outcomes k) command o ∧ e.stateAt outcomes (k + 1) = o.estimator

namespace Sound

variable {d : Dimensions} {e : Estimator}

theorem step_eq (h : Sound d e) (ha : d.Accepted) (command : Command) :
    ∃ o, e.step command = .ok o ∧ Stepped e command o ∧ Sound d o.estimator := by
  cases command with
  | frame frame => exact h.process_eq ha frame
  | reset =>
    refine ⟨_, rfl, rfl, ?_⟩
    change Sound d e.reset
    rw [h.reset_eq ha]
    exact sound_fresh ha

/-- A run never faults. -/
theorem run_eq (h : Sound d e) (ha : d.Accepted) (commands : List Command) :
    ∃ outcomes, e.run commands = .ok outcomes ∧ Course d e commands outcomes := by
  induction commands generalizing e with
  | nil =>
    refine ⟨[], rfl, rfl, ?_, by simp⟩
    intro k hk
    obtain rfl := Nat.le_zero.mp hk
    exact h
  | cons command commands ih =>
    obtain ⟨o, hstep, hstepped, hsound⟩ := h.step_eq ha command
    obtain ⟨outcomes, hrun, hcourse⟩ := ih hsound
    refine ⟨o :: outcomes, ?_, by simp [hcourse.length_eq], ?_, ?_⟩
    · exact run_cons_eq_ok.mpr ⟨o, outcomes, hstep, hrun, rfl⟩
    · intro k hk
      cases k with
      | zero => exact h
      | succ k =>
        rw [stateAt_succ]
        exact hcourse.sound k (Nat.le_of_succ_le_succ hk)
    · intro k c hc
      cases k with
      | zero =>
        obtain rfl := Option.some.inj hc
        exact ⟨o, rfl, hstepped, stateAt_succ e o outcomes 0⟩
      | succ k =>
        rw [List.getElem?_cons_succ, stateAt_succ, stateAt_succ]
        exact hcourse.stepped k c hc

end Sound

/-- What holds at the start and is kept by frames and resets holds in every state of a course. -/
theorem Course.invariant {d : Dimensions} {e : Estimator} {commands : List Command}
    {outcomes : List Outcome} {P : Estimator → Prop} (h : Course d e commands outcomes)
    (hstart : P e)
    (hframe : ∀ {e frame o}, Sound d e → P e → Processed e frame o → Sound d o.estimator →
      P o.estimator)
    (hreset : ∀ {e}, Sound d e → P e → P e.reset) {k : Nat} (hk : k ≤ commands.length) :
    P (e.stateAt outcomes k) := by
  induction k with
  | zero => exact hstart
  | succ k ih =>
    obtain ⟨o, -, hstepped, hstate⟩ := h.stepped k _ (List.getElem?_eq_getElem hk)
    have hbefore := h.sound k (by omega)
    have hafter := h.sound (k + 1) hk
    rw [hstate] at hafter ⊢
    cases hcommand : commands[k] with
    | frame frame =>
      rw [hcommand] at hstepped
      exact hframe hbefore (ih (by omega)) hstepped hafter
    | reset =>
      rw [hcommand] at hstepped
      rw [hstepped]
      exact hreset hbefore (ih (by omega))

theorem Course.sound_after {d : Dimensions} {e : Estimator} {commands : List Command}
    {outcomes : List Outcome} (h : Course d e commands outcomes) : Sound d (e.after outcomes) := by
  rw [← stateAt_length]
  exact h.sound _ (Nat.le_of_eq h.length_eq)

/-- An estimator that some commands lead to from a new one. -/
inductive Reachable (d : Dimensions) : Estimator → Prop
  | after {e : Estimator} {commands : List Command} {outcomes : List Outcome}
      (h : (create d).value = .ok e) (hrun : e.run commands = .ok outcomes) :
      Reachable d (e.after outcomes)

namespace Reachable

variable {d : Dimensions} {e : Estimator}

theorem exists_course (h : Reachable d e) : ∃ (ha : d.Accepted) (commands : List Command)
    (outcomes : List Outcome), Course d (fresh d ha) commands outcomes ∧
      e = (fresh d ha).after outcomes := by
  obtain ⟨h, hrun⟩ := h
  obtain ⟨ha, rfl⟩ := create_value_eq h
  obtain ⟨outcomes', hrun', hcourse⟩ := (sound_fresh ha).run_eq ha _
  obtain rfl := Except.ok.inj (hrun.symm.trans hrun')
  exact ⟨ha, _, _, hcourse, rfl⟩

theorem accepted (h : Reachable d e) : d.Accepted := by
  obtain ⟨ha, -⟩ := h.exists_course
  exact ha

theorem sound (h : Reachable d e) : Sound d e := by
  obtain ⟨ha, commands, outcomes, hcourse, rfl⟩ := h.exists_course
  exact hcourse.sound_after

/-- An invariant of the new estimator that every frame keeps; a reset makes the estimator new. -/
theorem invariant {P : Estimator → Prop} (h : Reachable d e) (hfresh : ∀ ha, P (fresh d ha))
    (hframe : ∀ {e frame o}, Sound d e → P e → Processed e frame o → Sound d o.estimator →
      P o.estimator) : P e := by
  obtain ⟨ha, commands, outcomes, hcourse, rfl⟩ := h.exists_course
  rw [← stateAt_length]
  refine hcourse.invariant (hfresh ha) hframe ?_ (Nat.le_of_eq hcourse.length_eq)
  intro e hsound _
  rw [hsound.reset_eq ha]
  exact hfresh ha

theorem of_fresh (ha : d.Accepted) (commands : List Command) :
    ∃ outcomes, (fresh d ha).run commands = .ok outcomes ∧
      Reachable d ((fresh d ha).after outcomes) := by
  obtain ⟨outcomes, hrun, -⟩ := (sound_fresh ha).run_eq ha commands
  exact ⟨outcomes, hrun, .after (by rw [create_fresh]) hrun⟩

/-- A course of frames alone from a state that has been reached. -/
theorem run_frames (h : Reachable d e) (frames : List Frame) :
    ∃ outcomes, e.run (frames.map .frame) = .ok outcomes ∧
      Course d e (frames.map .frame) outcomes :=
  h.sound.run_eq h.accepted _

end Reachable

/-- An estimator that is new, or has been reset after whatever it processed. -/
inductive Started (d : Dimensions) : Estimator → Prop
  | created {e : Estimator} (h : (create d).value = .ok e) : Started d e
  | reset {e : Estimator} {commands : List Command} {outcomes : List Outcome}
      (h : (create d).value = .ok e) (hrun : e.run commands = .ok outcomes) :
      Started d (e.after outcomes).reset

theorem started_fresh {d : Dimensions} (ha : d.Accepted) : Started d (fresh d ha) :=
  .created (by rw [create_fresh])

theorem Started.eq_fresh {d : Dimensions} {e : Estimator} (h : Started d e) :
    ∃ ha : d.Accepted, e = fresh d ha := by
  cases h with
  | created h => exact create_value_eq h
  | reset h hrun =>
    have hreached := Reachable.after h hrun
    exact ⟨hreached.accepted, hreached.sound.reset_eq hreached.accepted⟩

namespace Started

variable {d : Dimensions} {e : Estimator}

theorem thresholds_eq (h : Started d e) : e.thresholds = .initial := by
  obtain ⟨ha, rfl⟩ := h.eq_fresh
  rfl

theorem lastDelay_eq (h : Started d e) : e.lastDelay = none := by
  obtain ⟨ha, rfl⟩ := h.eq_fresh
  rfl

/-- A course of frames alone from a start. -/
theorem run_frames (h : Started d e) (frames : List Frame) :
    ∃ outcomes, e.run (frames.map .frame) = .ok outcomes ∧
      Course d e (frames.map .frame) outcomes := by
  obtain ⟨ha, rfl⟩ := h.eq_fresh
  exact (sound_fresh ha).run_eq ha _

end Started

namespace Course

variable {d : Dimensions} {e : Estimator} {frames : List Frame} {outcomes : List Outcome}

theorem frames_length (h : Course d e (frames.map .frame) outcomes) :
    outcomes.length = frames.length := by
  rw [h.length_eq, List.length_map]

theorem frame_sound (h : Course d e (frames.map .frame) outcomes) {k : Nat}
    (hk : k ≤ frames.length) : Sound d (e.stateAt outcomes k) :=
  h.sound k (by rwa [List.length_map])

theorem processed_at (h : Course d e (frames.map .frame) outcomes) {k : Nat}
    (hk : k < frames.length) : ∃ o, outcomes[k]? = some o ∧
      Processed (e.stateAt outcomes k) frames[k] o ∧ e.stateAt outcomes (k + 1) = o.estimator :=
  h.stepped k (.frame frames[k]) (by rw [List.getElem?_map, List.getElem?_eq_getElem hk]; rfl)

/-- Every outcome is that of one of the frames. -/
theorem processed_of_mem_take (h : Course d e (frames.map .frame) outcomes) {n : Nat} {o : Outcome}
    (ho : o ∈ outcomes.take n) : ∃ k < n, ∃ hk : k < frames.length, outcomes[k]? = some o ∧
      Processed (e.stateAt outcomes k) frames[k] o ∧ e.stateAt outcomes (k + 1) = o.estimator := by
  obtain ⟨k, hget⟩ := List.getElem?_of_mem ho
  have hlt := (List.getElem?_eq_some_iff.mp hget).1
  rw [List.length_take, h.frames_length] at hlt
  rw [List.getElem?_take_of_lt (by omega)] at hget
  obtain ⟨o', ho', hprocessed, hstate⟩ := h.processed_at (by omega : k < frames.length)
  obtain rfl := Option.some.inj (hget.symm.trans ho')
  exact ⟨k, by omega, by omega, hget, hprocessed, hstate⟩

/-- While one candidate leads, the delay stays or moves to it. -/
theorem lastDelay_of_leader (h : Course d e (frames.map .frame) outcomes) {j k c : Nat}
    (hjk : j ≤ k) (hk : k ≤ frames.length)
    (hleader : ∀ i, j < i → i ≤ k → (e.stateAt outcomes i).leader = c) :
    (e.stateAt outcomes k).lastDelay = (e.stateAt outcomes j).lastDelay ∨
      (e.stateAt outcomes k).lastDelay = some c := by
  induction k, hjk using Nat.le_induction with
  | base => exact .inl rfl
  | succ k hjk ih =>
    obtain ⟨o, -, hprocessed, hstate⟩ := h.processed_at hk
    have hlead := hleader (k + 1) (by omega) le_rfl
    rw [hstate] at hlead ⊢
    by_cases hmoved : o.estimator.lastDelay = (e.stateAt outcomes k).lastDelay
    · rw [hmoved]
      exact ih (by omega) fun i hj hi => hleader i hj (by omega)
    · right
      rw [hprocessed.toDecided.lastDelay_of_ne hmoved, hlead]

theorem lastDelay_stays_of_leader (h : Course d e (frames.map .frame) outcomes) {j k c : Nat}
    (hjk : j ≤ k) (hk : k ≤ frames.length)
    (hleader : ∀ i, j < i → i ≤ k → (e.stateAt outcomes i).leader = c)
    (hlast : (e.stateAt outcomes j).lastDelay = some c) :
    (e.stateAt outcomes k).lastDelay = some c := by
  rcases h.lastDelay_of_leader hjk hk hleader with hkept | hmoved
  · exact hkept.trans hlast
  · exact hmoved

end Course
end EchoDelay.Estimator
