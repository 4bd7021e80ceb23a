import EchoDelay.Handle.Table

/-!
# Slots do not interfere

A request is answered from the handle of its own slot and changes no other one. The answers to all
requests on one slot are therefore those of a run in which nobody else makes any.
-/
namespace EchoDelay.HandleTable

variable {slots : Nat}

/-- The handle in a slot. The null handle is always empty. -/
def handle (table : HandleTable slots) : Option (Fin slots) → Handle
  | none => none
  | some slot => table.get slot

/-- The answers to the requests on one slot, or on the null handle. -/
def answersTo (slot : Option (Fin slots)) (requests : List (Request slots))
    (answers : List Answer) : List Answer :=
  ((requests.zip answers).filter fun exchange => exchange.1.slot = slot).map Prod.snd

theorem answersTo_cons (slot : Option (Fin slots)) (request : Request slots)
    (requests : List (Request slots)) (answer : Answer) (answers : List Answer) :
    answersTo slot (request :: requests) (answer :: answers) =
      if request.slot = slot then answer :: answersTo slot requests answers
      else answersTo slot requests answers := by
  by_cases h : request.slot = slot <;> simp [answersTo, h]

/-- An answer depends on one handle alone. -/
theorem answer_snd (table : HandleTable slots) (request : Request slots) :
    (table.answer request).2 =
      ⟨(Handle.answer (table.handle request.slot) request.call).reply,
        (Handle.answer (table.handle request.slot) request.call).events⟩ := by
  rcases request with ⟨slot, call⟩
  cases slot <;> rfl

theorem answer_handle_self (table : HandleTable slots) (slot : Fin slots) (call : Call) :
    (table.answer ⟨some slot, call⟩).1.handle (some slot) =
      (Handle.answer (table.handle (some slot)) call).handle := by
  change (Vector.set table slot (Handle.answer table[slot] call).handle)[slot] =
    (Handle.answer table[slot] call).handle
  simp

theorem answer_handle_of_ne (table : HandleTable slots) {request : Request slots}
    {slot : Option (Fin slots)} (h : request.slot ≠ slot) :
    (table.answer request).1.handle slot = table.handle slot := by
  rcases request with ⟨named, call⟩
  cases named with
  | none => rfl
  | some named =>
    cases slot with
    | none => rfl
    | some slot =>
      have hne : (named : Nat) ≠ slot := fun heq => h (congrArg some (Fin.ext heq))
      change (Vector.set table named (Handle.answer table[named] call).handle)[slot] = table[slot]
      simp [hne]

/-- The handle a request leaves is determined by the handle it finds. -/
theorem answer_handle_congr {table alone : HandleTable slots} {request : Request slots}
    (h : table.handle request.slot = alone.handle request.slot) :
    (table.answer request).1.handle request.slot =
      (alone.answer request).1.handle request.slot := by
  rcases request with ⟨slot, call⟩
  cases slot with
  | none => rfl
  | some slot => rw [answer_handle_self, answer_handle_self, h]

theorem run_cons (table : HandleTable slots) (request : Request slots)
    (requests : List (Request slots)) : table.run (request :: requests) =
      (((table.answer request).1.run requests).1,
        (table.answer request).2 :: ((table.answer request).1.run requests).2) := rfl

theorem run_append (table : HandleTable slots) (first second : List (Request slots)) :
    table.run (first ++ second) = (((table.run first).1.run second).1,
      (table.run first).2 ++ ((table.run first).1.run second).2) := by
  induction first generalizing table with
  | nil => rfl
  | cons request first ih => simp [run_cons, ih]

@[simp] theorem run_length (table : HandleTable slots) (requests : List (Request slots)) :
    (table.run requests).2.length = requests.length := by
  induction requests generalizing table with
  | nil => rfl
  | cons request requests ih => simp [run_cons, ih]

/-- Each answer is given by the table that the requests before it have left. -/
theorem run_getElem? (table : HandleTable slots) {requests : List (Request slots)} {n : Nat}
    {request : Request slots} (h : requests[n]? = some request) :
    (table.run requests).2[n]? = some ((table.run (requests.take n)).1.answer request).2 := by
  induction requests generalizing table n with
  | nil => simp at h
  | cons first requests ih =>
    cases n with
    | zero =>
      obtain rfl := Option.some.inj h
      rfl
    | succ n => exact ih (table.answer first).1 (by simpa using h)

/-- Requests on other slots can be left out: what two tables hold in this one is enough. -/
theorem answersTo_run {table alone : HandleTable slots} {slot : Option (Fin slots)}
    (h : table.handle slot = alone.handle slot) (requests : List (Request slots)) :
    answersTo slot requests (table.run requests).2 =
      (alone.run (requests.filter fun request => request.slot = slot)).2 := by
  induction requests generalizing table alone with
  | nil => rfl
  | cons request requests ih =>
    rw [run_cons, answersTo_cons]
    by_cases hslot : request.slot = slot
    · subst hslot
      rw [if_pos rfl, List.filter_cons_of_pos (by simp), run_cons, ih (answer_handle_congr h),
        answer_snd, answer_snd, h]
    · rw [if_neg hslot, List.filter_cons_of_neg (by simpa using hslot)]
      apply ih
      rw [answer_handle_of_ne table hslot, h]

end EchoDelay.HandleTable
