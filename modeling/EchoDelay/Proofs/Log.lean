import EchoDelay.Proofs.Run

/-!
# The log of a run

A frame writes one line if it moves the delay and none otherwise, although the delay is reported
once for each condition that a candidate meets. Read in order, with a fresh start at every reset,
the lines follow on from one another and give back the delay after every command.
-/
namespace EchoDelay

/-- A line of a log, or the mark of a reset. -/
inductive Entry where
  | restarted
  | line (event : Event)
  deriving DecidableEq

/-- The entries of a command. -/
def entries : Command → Outcome → List Entry
  | .frame _, o => o.events.map .line
  | .reset, o => .restarted :: o.events.map .line

/-- The entries of a run, command by command. -/
def journal (commands : List Command) (outcomes : List Outcome) : List (List Entry) :=
  List.zipWith entries commands outcomes

/-- The delay after an entry. A line has to start from the delay before it. -/
def follow (delay : Option Nat) : Entry → Option (Option Nat)
  | .restarted => some none
  | .line (.delayChanged before after _) =>
    if before = delay then some (some after) else none
  | .line _ => none

/-- The delay after some entries, unless a line of them does not follow on. -/
def replay (delay : Option Nat) (log : List Entry) : Option (Option Nat) := log.foldlM follow delay

theorem replay_append {delay delay' : Option Nat} {first : List Entry}
    (h : replay delay first = some delay') (second : List Entry) :
    replay delay (first ++ second) = replay delay' second := by
  rw [replay] at h
  rw [replay, List.foldlM_append, h]
  rfl

namespace Estimator

/-- What a command writes after `e`. -/
def Writes (e : Estimator) : Command → Outcome → Prop
  | .frame _, o =>
    (o.delay = e.lastDelay → o.events = []) ∧
    (o.delay ≠ e.lastDelay → ∃ delay event, o.delay = some delay ∧ o.events = [event] ∧
      event = .delayChanged e.lastDelay delay o.estimator.thresholds.minimumProbability ∧
      event.level = .debug)
  | .reset, o => o.events = []

variable {d : Dimensions} {e : Estimator} {command : Command} {o : Outcome}

theorem Decided.events_eq_nil (h : Decided e o) (hkept : o.delay = e.lastDelay) :
    o.events = [] := by
  rw [h.events_eq, ← h.delay_eq, if_pos hkept]

theorem Decided.events_eq_singleton (h : Decided e o) (hmoved : o.delay ≠ e.lastDelay) :
    o.delay = some o.estimator.leader ∧ o.events =
      [.delayChanged e.lastDelay o.estimator.leader
        o.estimator.thresholds.minimumProbability] := by
  rw [h.delay_eq] at hmoved ⊢
  rw [h.events_eq, if_neg hmoved]
  exact ⟨h.lastDelay_of_ne hmoved, rfl⟩

theorem Stepped.writes (h : Stepped e command o) : e.Writes command o := by
  cases command with
  | reset =>
    rw [Stepped] at h
    rw [h]
    rfl
  | frame frame =>
    refine ⟨h.toDecided.events_eq_nil, fun hmoved => ?_⟩
    obtain ⟨hdelay, hevents⟩ := h.toDecided.events_eq_singleton hmoved
    exact ⟨_, _, hdelay, hevents, rfl, rfl⟩

/-- The entries of one command lead from the delay before it to the delay after it. -/
theorem Stepped.replay_entries (h : Stepped e command o) :
    replay e.lastDelay (entries command o) = some o.estimator.lastDelay := by
  cases command with
  | reset =>
    rw [Stepped] at h
    rw [h]
    rfl
  | frame frame =>
    rw [← h.delay_eq, entries]
    by_cases hmoved : o.delay = e.lastDelay
    · rw [h.toDecided.events_eq_nil hmoved, hmoved]
      rfl
    · obtain ⟨hdelay, hevents⟩ := h.toDecided.events_eq_singleton hmoved
      rw [hevents, hdelay]
      simp [replay, follow]

theorem Course.replay_journal {commands : List Command} {outcomes : List Outcome}
    (h : Course d e commands outcomes) {k : Nat} (hk : k ≤ commands.length) :
    replay e.lastDelay ((journal commands outcomes).take k).flatten =
      some (e.stateAt outcomes k).lastDelay := by
  induction k with
  | zero => rfl
  | succ k ih =>
    have hcommand := List.getElem?_eq_getElem (Nat.lt_of_succ_le hk)
    obtain ⟨o, ho, hstepped, hstate⟩ := h.stepped k _ hcommand
    have hentries : (journal commands outcomes)[k]? = some (entries commands[k] o) := by
      rw [journal, List.getElem?_zipWith, hcommand, ho]
    rw [List.take_add_one, hentries, List.flatten_append, replay_append (ih (by omega)), hstate]
    change replay _ (entries commands[k] o ++ []) = _
    rw [List.append_nil]
    exact hstepped.replay_entries

/-- The log of any run: what each command writes, and that the lines lead from no delay to the delay
after every command. -/
theorem run_replay (he : (create d).value = .ok e) (commands : List Command) :
    ∃ outcomes, e.run commands = .ok outcomes ∧ outcomes.length = commands.length ∧
      (∀ (k : Nat) (command : Command), commands[k]? = some command → ∃ o,
        outcomes[k]? = some o ∧ (e.stateAt outcomes k).Writes command o) ∧
      (∀ k ≤ commands.length, replay none ((journal commands outcomes).take k).flatten =
        some (e.stateAt outcomes k).lastDelay) ∧
      ∀ (reached : Estimator) (candidate : Nat) (mean : Q9),
        reached.considerInTurn candidate mean = reached.consider candidate mean := by
  obtain ⟨ha, rfl⟩ := create_value_eq he
  obtain ⟨outcomes, hrun, hcourse⟩ := (sound_fresh ha).run_eq ha commands
  refine ⟨outcomes, hrun, hcourse.length_eq, ?_, fun k hk => hcourse.replay_journal hk,
    considerInTurn_eq⟩
  intro k command hcommand
  obtain ⟨o, ho, hstepped, -⟩ := hcourse.stepped k command hcommand
  exact ⟨o, ho, hstepped.writes⟩

/-- Candidate 0 matches, then candidate 1, and after a reset candidate 1 again. -/
def moving : List Command :=
  (List.replicate 10 [⟨0xFFFFFFFF, 0xFFFFFFFF⟩, ⟨0, 0⟩]).flatten.map .frame ++
    (List.replicate 20 [⟨0xFFFFFFFF, 0⟩, ⟨0, 0xFFFFFFFF⟩]).flatten.map .frame ++
    .reset :: (List.replicate 10 [⟨0xFFFFFFFF, 0⟩, ⟨0, 0xFFFFFFFF⟩]).flatten.map .frame

/-- The last of the three lines starts from no delay. -/
theorem run_replay_moving :
    ∃ e outcomes, (create ⟨2, 0⟩).value = .ok e ∧ e.run moving = .ok outcomes ∧
      (outcomes.flatMap Outcome.events).map Event.line =
        ["DEBUG Delay estimate changed: None -> 0 (minimum probability 32.00)",
          "DEBUG Delay estimate changed: Some(0) -> 1 (minimum probability 32.00)",
          "DEBUG Delay estimate changed: None -> 1 (minimum probability 32.00)"] ∧
      replay none ((journal moving outcomes).take 56).flatten =
        some (e.stateAt outcomes 56).lastDelay ∧
      (e.stateAt outcomes 56).lastDelay = some 1 := by
  have he : (create ⟨2, 0⟩).value = .ok (fresh ⟨2, 0⟩ (by decide)) := by
    rw [create_fresh]
  obtain ⟨outcomes, hrun, -, -, hreplay, -⟩ := run_replay he moving
  have houtcomes := outcomes_eq hrun
  refine ⟨_, outcomes, he, hrun, ?_, hreplay 56 (by decide), ?_⟩
  · rw [houtcomes]
    decide +kernel
  · rw [houtcomes]
    decide +kernel

end Estimator
end EchoDelay
