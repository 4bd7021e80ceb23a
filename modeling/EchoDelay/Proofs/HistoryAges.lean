import EchoDelay.History
import EchoDelay.Spectrum.Basic
import Mathlib.Data.List.Induction

/-!
# The age of a value

A history is pushed to and cleared, on its slots or on cells in place. No update faults, and both
ways agree after every sequence of them. A slot then holds the value that was pushed as many pushes
ago as its position says, if the history has not been cleared since.
-/
namespace EchoDelay.History

variable {α : Type} {blank : α}

inductive Update (α : Type) where
  | push (value : α)
  | clear
  deriving DecidableEq, Repr

/-- The history after an update. -/
def update (blank : α) (h : History α) : Update α → History α
  | .push value => h.push value
  | .clear => h.fill blank

def run (blank : α) (h : History α) (updates : List (Update α)) : History α :=
  updates.foldl (update blank) h

def updateInPlace (blank : α) : Update α → EStateM Fault (List α) Unit
  | .push value => pushInPlace value
  | .clear => clearInPlace blank

def runInPlace (blank : α) : List (Update α) → EStateM Fault (List α) Unit
  | [] => pure ()
  | update :: updates => do
    updateInPlace blank update
    runInPlace blank updates

theorem updateInPlace_eq (h : History α) (update : Update α) :
    updateInPlace blank update h.slots = .ok () (h.update blank update).slots := by
  cases update with
  | push value => exact pushInPlace_eq h value
  | clear => exact clearInPlace_eq h

theorem runInPlace_eq (h : History α) (updates : List (Update α)) :
    runInPlace blank updates h.slots = .ok () (h.run blank updates).slots := by
  induction updates generalizing h with
  | nil => rfl
  | cons update updates ih =>
    rw [runInPlace, bind_apply_of_eq_ok (updateInPlace_eq h update), ih, run, run, List.foldl_cons]

/-- The values pushed since the history was last cleared, of updates that are listed with the latest
first. -/
def pushedSinceClear : List (Update α) → List α
  | [] => []
  | .push value :: earlier => value :: pushedSinceClear earlier
  | .clear :: _ => []

/-- The value that was pushed `age` pushes ago, or the blank if there is none since the last
clear. -/
def valueOfAge (blank : α) (updates : List (Update α)) (age : Nat) : α :=
  (pushedSinceClear updates.reverse)[age]?.getD blank

theorem valueOfAge_push_zero (updates : List (Update α)) (value : α) :
    valueOfAge blank (updates ++ [.push value]) 0 = value := by
  rw [valueOfAge, List.reverse_concat]
  rfl

theorem valueOfAge_push_succ (updates : List (Update α)) (value : α) (age : Nat) :
    valueOfAge blank (updates ++ [.push value]) (age + 1) = valueOfAge blank updates age := by
  rw [valueOfAge, List.reverse_concat]
  rfl

theorem valueOfAge_clear (updates : List (Update α)) (age : Nat) :
    valueOfAge blank (updates ++ [.clear]) age = blank := by
  rw [valueOfAge, List.reverse_concat]
  rfl

theorem run_concat (h : History α) (updates : List (Update α)) (last : Update α) :
    h.run blank (updates ++ [last]) = (h.run blank updates).update blank last :=
  List.foldl_append

theorem size_run (h : History α) (updates : List (Update α)) :
    (h.run blank updates).size = h.size := by
  induction updates using List.reverseRecOn with
  | nil => rfl
  | append_singleton updates last ih =>
    rw [run_concat, ← ih]
    cases last with
    | push value => exact size_push _ value
    | clear => exact size_fill _ blank

/-- A push makes every value one push older, and a clear leaves none. -/
theorem run_slots (n : Nat) (hn : 0 < n) (updates : List (Update α)) :
    ((filled blank n hn).run blank updates).slots =
      (List.range n).map (valueOfAge blank updates) := by
  induction updates using List.reverseRecOn with
  | nil =>
    rw [run, List.foldl_nil, slots_filled]
    exact replicate_eq_map_range n fun age => rfl
  | append_singleton updates last ih =>
    rw [run_concat]
    cases last with
    | push value =>
      exact slots_push_ages ih (valueOfAge_push_zero updates value)
        (valueOfAge_push_succ updates value)
    | clear =>
      rw [update, slots_fill, size_run, size_filled]
      exact replicate_eq_map_range n (valueOfAge_clear updates)

/-- No sequence of updates faults or changes the length of a history, its slots hold the values by
their age since the last clear, and the oldest one is in the last slot. -/
theorem run_ages (blank : α) (n : Nat) (hn : 0 < n) (updates : List (Update α)) :
    ∃ h, (filled blank n hn).run blank updates = h ∧
      runInPlace blank updates (List.replicate n blank) = .ok () h.slots ∧
      h.size = n ∧ (∀ i < n, h.slots[i]? = some (valueOfAge blank updates i)) ∧
      h.slots[n - 1]? = some h.oldest ∧ oldestInPlace h.slots = .ok h.oldest h.slots := by
  have hsize : ((filled blank n hn).run blank updates).size = n := by rw [size_run, size_filled]
  refine ⟨_, rfl, ?_, hsize, fun i hi => ?_, ?_, oldestInPlace_eq _⟩
  · rw [← slots_filled blank n hn]
    exact runInPlace_eq _ updates
  · rw [run_slots, getElem?_map_range _ hi]
  · rw [← getLast?_slots, List.getLast?_eq_getElem?, ← size, hsize]

/-- Four pushes after a clear are one too many for three slots. -/
theorem run_ages_overfull :
    0 < 3 ∧ ∃ h, (filled (0 : Spectrum) 3 (by decide)).run 0
        [.push 1, .push 2, .clear, .push 3, .push 4, .push 5, .push 6] = h ∧
      runInPlace 0 [.push 1, .push 2, .clear, .push 3, .push 4, .push 5, .push 6] [0, 0, 0] =
        .ok () h.slots ∧
      h.slots[0]? = some 6 ∧ h.slots[2]? = some 4 ∧ h.oldest = 4 := by
  obtain ⟨h, hrun, hplace, -, hages, holdest, -⟩ := run_ages (0 : Spectrum) 3 (by decide)
    [.push 1, .push 2, .clear, .push 3, .push 4, .push 5, .push 6]
  have hlast := hages 2 (by decide)
  refine ⟨by decide, h, hrun, hplace, hages 0 (by decide), hlast, ?_⟩
  exact Option.some.inj (holdest.symm.trans hlast)

/-- In a history of one slot there is no cell to move. -/
example : runInPlace 0 [.push 7, .push 9] [(0 : Spectrum)] = .ok () [9] := rfl

end EchoDelay.History
