import EchoDelay.Track
import Mathlib.Data.List.Induction
import Mathlib.Tactic.ByContra

/-!
# The final run of a value

A track that ends with a value settles where its last run of that value starts. The start is found
by counting back from the end; it is the only frame from which on the track holds the value and
before which it does not. It is the first frame of all with the value just when the value is never
left.
-/
namespace EchoDelay

/-- From frame `k` on the track holds the value, which the frame before does not. -/
structure SettlesAt {α : Type} (track : List α) (value : α) (k : Nat) : Prop where
  lt_length : k < track.length
  holds : ∀ i, k ≤ i → i < track.length → track[i]? = some value
  starts : k = 0 ∨ track[k - 1]? ≠ some value

variable {α : Type} {track : List α} {value : α} {k : Nat}

theorem getElem?_concat_of_le {i : Nat} (hi : track.length ≤ i)
    (hlt : i < (track ++ [value]).length) : (track ++ [value])[i]? = some value := by
  rw [List.length_append, List.length_singleton] at hlt
  obtain rfl : i = track.length := by omega
  exact List.getElem?_concat_length

namespace SettlesAt

theorem le {l : Nat} (hk : SettlesAt track value k) (hl : SettlesAt track value l) : l ≤ k := by
  by_contra! hlt
  have hbefore := hk.holds (l - 1) (by omega) (by have := hl.lt_length; omega)
  rcases hl.starts with hzero | hstarts
  · omega
  · exact hstarts hbefore

/-- A track settles at one frame only. -/
theorem unique {l : Nat} (hk : SettlesAt track value k) (hl : SettlesAt track value l) : k = l :=
  Nat.le_antisymm (hl.le hk) (hk.le hl)

theorem getLast?_eq (h : SettlesAt track value k) : track.getLast? = some value := by
  have hlt := h.lt_length
  rw [List.getLast?_eq_getElem?]
  exact h.holds _ (by omega) (by omega)

/-- One more frame with the value belongs to the final run. -/
theorem concat (h : SettlesAt track value k) : SettlesAt (track ++ [value]) value k := by
  have hlt := h.lt_length
  refine ⟨by simp; omega, fun i hi hilt => ?_, ?_⟩
  · rcases Nat.lt_or_ge i track.length with hbefore | hlast
    · rw [List.getElem?_append_left hbefore]
      exact h.holds i hi hbefore
    · exact getElem?_concat_of_le hlast hilt
  · rw [List.getElem?_append_left (by omega)]
    exact h.starts

/-- After another value, or none, it starts a run. -/
theorem concat_length (h : track.getLast? ≠ some value) :
    SettlesAt (track ++ [value]) value track.length := by
  refine ⟨by simp, fun i hi hilt => getElem?_concat_of_le hi hilt, ?_⟩
  cases hlength : track.length with
  | zero => exact .inl rfl
  | succ n =>
    rw [List.getLast?_eq_getElem?, hlength] at h
    rw [List.getElem?_append_left (by omega)]
    exact .inr h

end SettlesAt

variable [DecidableEq α]

theorem settledAt_eq_none_iff : settledAt track value = none ↔ track.getLast? ≠ some value := by
  rw [settledAt]
  split <;> simp [*]

theorem takeWhile_reverse_eq_nil (h : track.getLast? ≠ some value) :
    track.reverse.takeWhile (· = value) = [] := by
  rw [← List.head?_reverse] at h
  cases hreverse : track.reverse with
  | nil => rfl
  | cons last rest =>
    rw [hreverse] at h
    exact List.takeWhile_cons_of_neg (by simpa using h)

/-- A last frame with the value leaves the start where it was, if there was one. -/
theorem settledAt_concat_self (track : List α) (value : α) :
    settledAt (track ++ [value]) value = some ((settledAt track value).getD track.length) := by
  rw [settledAt, if_pos List.getLast?_concat, List.reverse_concat,
    List.takeWhile_cons_of_pos (by simp), settledAt]
  split
  · simp
  · rename_i hlast
    simp [takeWhile_reverse_eq_nil hlast]

theorem settlesAt_of_settledAt (h : settledAt track value = some k) : SettlesAt track value k := by
  induction track using List.reverseRecOn generalizing k with
  | nil => simp [settledAt] at h
  | append_singleton track last ih =>
    have hlast : last = value := by
      by_contra hne
      rw [settledAt_eq_none_iff.mpr (by simpa using hne)] at h
      cases h
    subst hlast
    rw [settledAt_concat_self, Option.some_inj] at h
    cases hsettled : settledAt track last with
    | none =>
      rw [hsettled] at h
      rw [← show track.length = k from h]
      exact .concat_length (settledAt_eq_none_iff.mp hsettled)
    | some start =>
      rw [hsettled] at h
      rw [← show start = k from h]
      exact (ih hsettled).concat

theorem settledAt_eq_some_iff : settledAt track value = some k ↔ SettlesAt track value k := by
  refine ⟨settlesAt_of_settledAt, fun h => ?_⟩
  cases hsettled : settledAt track value with
  | none => exact absurd h.getLast?_eq (settledAt_eq_none_iff.mp hsettled)
  | some start => rw [(settlesAt_of_settledAt hsettled).unique h]

/-- The value, once taken, is not left again. -/
def Sticks (track : List α) (value : α) (first : Nat) : Prop :=
  ∀ i, first < i → i < track.length → track[i]? = some value

/-- A track settles at the first frame with the value if and only if the value sticks from there. -/
theorem SettlesAt.eq_first_iff (h : SettlesAt track value k) {first : Nat}
    (hfirst : track.idxOf? value = some first) : k = first ↔ Sticks track value first := by
  obtain ⟨hlt, hvalue, hearlier⟩ := List.idxOf?_eq_some_iff.mp hfirst
  constructor
  · rintro rfl i hi hilt
    exact h.holds i (by omega) hilt
  · intro hsticks
    refine h.unique ⟨hlt, fun i hi hilt => ?_, ?_⟩
    · rcases Nat.eq_or_lt_of_le hi with rfl | hafter
      · rw [List.getElem?_eq_getElem hlt, hvalue]
      · exact hsticks i hafter hilt
    · cases first with
      | zero => exact .inl rfl
      | succ first =>
        refine .inr fun hbefore => hearlier first (by omega) ?_
        rw [List.getElem?_eq_some_iff] at hbefore
        exact hbefore.2

theorem SettlesAt.exists_first (h : SettlesAt track value k) :
    ∃ first, track.idxOf? value = some first := by
  rw [← Option.isSome_iff_exists, List.isSome_idxOf?]
  exact List.mem_of_getLast? h.getLast?_eq

/-- A track that ends with the value settles where its final run starts, and any other does not
settle. The start is the first frame with the value if and only if the value sticks from there. -/
theorem settledAt_finds_finalRun (track : List α) (value : α) :
    (∀ k, settledAt track value = some k ↔ SettlesAt track value k) ∧
    (settledAt track value = none ↔
      track = [] ∨ ∃ last, track.getLast? = some last ∧ last ≠ value) ∧
    ∀ k, settledAt track value = some k → ∃ first, track.idxOf? value = some first ∧
      (k = first ↔ Sticks track value first) := by
  refine ⟨fun k => settledAt_eq_some_iff, ?_, fun k hk => ?_⟩
  · rw [settledAt_eq_none_iff, ← List.getLast?_eq_none_iff]
    cases track.getLast? <;> simp
  · have hsettles := settlesAt_of_settledAt hk
    obtain ⟨first, hfirst⟩ := hsettles.exists_first
    exact ⟨first, hfirst, hsettles.eq_first_iff hfirst⟩

/-- The value occurs first at frame 0, but it is left again. -/
example : settledAt [some 2, none, some 2, some 2] (some 2) = some 2 := by decide

end EchoDelay
