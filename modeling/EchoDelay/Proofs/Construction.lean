import EchoDelay.Proofs.Invariant

/-!
# How construction ends

The dimensions alone decide how the construction of an estimator ends: a size that does not fit into
64 bits, too few candidates, a buffer that cannot be addressed, or an estimator. The bounds are read
here off the two dimensions. Without a largest delay the near-end history is the longer of the
buffers, by one slot, and its size alone can be too much.
-/
namespace EchoDelay
namespace Dimensions

/-- The number of candidates does not fit, or it does and the length of the near-end history does
not. -/
def Overflows (d : Dimensions) : Prop :=
  sizeLimit ≤ d.maxDelay + d.lookahead ∨ d.maxDelay = 0 ∧ d.lookahead = sizeLimit - 1

/-- The longer of the buffers has more bytes than can be addressed. -/
def TooLarge (d : Dimensions) : Prop :=
  offsetLimit - 1 < 4 * max (d.maxDelay + d.lookahead) (d.lookahead + 1)

variable {d : Dimensions}

theorem failsWith_overflow_iff : d.FailsWith (.faulted (.overflow .add)) ↔ d.Overflows := by
  constructor
  · rintro (h | h | ⟨hfits, htwo, h⟩)
    · exact .inl h
    · rw [candidates] at hfits
      exact .inr (by omega)
  · rintro (h | ⟨hzero, hgreatest⟩)
    · exact .farSize h
    · refine .nearSize ?_ ?_ (by omega)
      all_goals rw [candidates, hzero, hgreatest, sizeLimit]; decide

theorem failsWith_tooShort_iff :
    d.FailsWith (.refused (.historyTooShort (d.maxDelay + d.lookahead))) ↔
      d.maxDelay + d.lookahead ≤ 1 := by
  constructor
  · rintro (h | h)
    exact h
  · exact .tooShort

theorem failsWith_capacity_iff : d.FailsWith (.faulted .capacity) ↔
    ¬ d.Overflows ∧ ¬ d.maxDelay + d.lookahead ≤ 1 ∧ d.TooLarge := by
  rw [Overflows, TooLarge]
  constructor
  · rintro (h | h | h | ⟨hfits, htwo, hnear, h⟩)
    rw [candidates] at hfits htwo h
    omega
  · rintro ⟨hover, hlong, hlarge⟩
    exact .capacity (by rw [candidates]; omega) (by rw [candidates]; omega) (by omega)
      (by rw [candidates]; omega)

theorem accepted_iff :
    d.Accepted ↔ ¬ d.Overflows ∧ ¬ d.maxDelay + d.lookahead ≤ 1 ∧ ¬ d.TooLarge := by
  rw [Overflows, TooLarge]
  constructor
  · intro h
    have hfits := h.candidates_lt
    have hnear := h.nearHistory_lt
    rcases h with ⟨htwo, hfar, hnear'⟩
    rw [candidates] at htwo hfits hfar
    omega
  · rintro ⟨hover, hlong, hlarge⟩
    refine ⟨?_, ?_, by omega⟩
    all_goals rw [candidates]; omega

end Dimensions

namespace Estimator

open Dimensions

variable {d : Dimensions}

theorem create_eq_error_iff {failure : Failure} :
    create d = ⟨.error failure, failureEvents d failure⟩ ↔ d.FailsWith failure := by
  refine ⟨fun h => ?_, create_of_failsWith⟩
  rcases d.accepted_or_failsWith with ha | ⟨failure', hfails⟩
  · rw [create_fresh ha] at h
    cases h
  · rw [create_of_failsWith hfails] at h
    cases h
    exact hfails

theorem create_eq_ok_iff {e : Estimator} :
    create d = ⟨.ok e, []⟩ ↔ ∃ ha : d.Accepted, e = fresh d ha := by
  constructor
  · intro h
    exact create_value_eq (congrArg Logged.value h)
  · rintro ⟨ha, rfl⟩
    exact create_fresh ha

/-- Sizes that have been validated are not refused when the buffers are made. -/
theorem allocate_ne_refused (hvalid : d.validate = .ok ()) (cause : DimensionError) :
    allocate d ≠ .error (.refused cause) := by
  intro hrefused
  have hcreate : create d = ⟨.error (.refused cause), []⟩ := by rw [create, hvalid, hrefused]
  rcases d.accepted_or_failsWith with ha | ⟨failure, hfails⟩
  · rw [create_fresh ha] at hcreate
    cases hcreate
  · rw [create_of_failsWith hfails] at hcreate
    cases hcreate

theorem create_events_warn (d : Dimensions) : ∀ event ∈ (create d).events, event.level = .warn := by
  intro event hevent
  rcases d.accepted_or_failsWith with ha | ⟨failure, hfails⟩
  · rw [create_fresh ha] at hevent
    cases hevent
  · rw [create_of_failsWith hfails] at hevent
    cases failure with
    | faulted fault => cases hevent
    | refused cause =>
      obtain rfl := List.mem_singleton.mp hevent
      rfl

/-- The four ways in which construction ends, each with the dimensions that lead to it. Whatever
passes the first look at the length is not refused at the second. -/
theorem create_classified (d : Dimensions) :
    (create d = ⟨.error (.faulted (.overflow .add)), []⟩ ↔ d.Overflows) ∧
    (create d = ⟨.error (.refused (.historyTooShort (d.maxDelay + d.lookahead))),
        [.dimensionsRefused d (.historyTooShort (d.maxDelay + d.lookahead))]⟩ ↔
      d.maxDelay + d.lookahead ≤ 1) ∧
    (create d = ⟨.error (.faulted .capacity), []⟩ ↔
      ¬ d.Overflows ∧ ¬ d.maxDelay + d.lookahead ≤ 1 ∧ d.TooLarge) ∧
    ((∃ e, create d = ⟨.ok e, []⟩ ∧ e.dimensions = d ∧
        e.dimensions.historySize = .ok (d.maxDelay + d.lookahead) ∧
        e.farHistory.size = d.maxDelay + d.lookahead ∧ 1 < d.maxDelay + d.lookahead ∧
        e.dimensions.nearHistorySize = .ok (d.lookahead + 1) ∧
        e.nearHistory.size = d.lookahead + 1) ↔
      ¬ d.Overflows ∧ ¬ d.maxDelay + d.lookahead ≤ 1 ∧ ¬ d.TooLarge) ∧
    (∀ event ∈ (create d).events, event.level = .warn) ∧
    (d.validate = .ok () → ∀ cause, allocate d ≠ .error (.refused cause)) ∧
    (Fault.overflow .add).message = "attempt to add with overflow" ∧
    Fault.capacity.message = "capacity overflow" := by
  refine ⟨create_eq_error_iff.trans failsWith_overflow_iff,
    create_eq_error_iff.trans failsWith_tooShort_iff,
    create_eq_error_iff.trans failsWith_capacity_iff, ?_, create_events_warn d,
    allocate_ne_refused, rfl, rfl⟩
  rw [← accepted_iff]
  constructor
  · rintro ⟨e, hcreate, -⟩
    obtain ⟨ha, -⟩ := create_eq_ok_iff.mp hcreate
    exact ha
  · intro ha
    have hsound := sound_fresh ha
    exact ⟨_, create_fresh ha, hsound.dimensions_eq, ha.historySize_eq, hsound.farHistory_size,
      ha.two_le, ha.nearHistorySize_eq, hsound.nearHistory_size⟩

/-- The near-end history is the buffer that is too large. -/
example : create ⟨0, 2305843009213693951⟩ = ⟨.error (.faulted .capacity), []⟩ := rfl

/-- The sum fits, and the length of the near-end history does not. -/
example : create ⟨0, 18446744073709551615⟩ = ⟨.error (.faulted (.overflow .add)), []⟩ := rfl

end Estimator
end EchoDelay
