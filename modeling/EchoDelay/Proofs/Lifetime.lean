import EchoDelay.Proofs.Isolation
import EchoDelay.Proofs.HandleCreation

/-!
# The lifetime of an estimator in a slot

From a call that creates an estimator in a slot to the next one that replaces or drops it, the calls
on this slot are those of one estimator: each call passes at most one command on to it, and what it
answers is read off the estimator afterwards. An empty slot, like the null handle, stays empty until
an estimator is created in it, and answers with codes of its own.
-/
namespace EchoDelay

/-- The command that a call passes on to the estimator of its handle. -/
def Call.command? : Call → Option Command
  | .process frame => some (.frame frame)
  | .reset => some .reset
  | _ => none

/-- The call leaves the handle with the estimator that it holds. -/
def Call.keeps : Call → Bool
  | .create _ _ => false
  | .destroy => false
  | _ => true

/-- What a call replies, given the estimator that it leaves. -/
def Call.replyOf (call : Call) (e : Estimator) : Reply :=
  match call with
  | .reset => .status Handle.success
  | _ => .delay e.lastDelayCode

namespace Estimator

variable {d : Dimensions} {e : Estimator}

/-- A call on an estimator is its command, if any, and a reading. -/
theorem Sound.answer_eq (h : Sound d e) (ha : d.Accepted) {call : Call} (hkeeps : call.keeps) :
    ∃ outcomes, e.run call.command?.toList = .ok outcomes ∧ Sound d (e.after outcomes) ∧
      Handle.answer (some e) call = ⟨some (e.after outcomes), call.replyOf (e.after outcomes),
        outcomes.flatMap Outcome.events⟩ := by
  cases call with
  | create => cases hkeeps
  | destroy => cases hkeeps
  | lastDelay => exact ⟨[], rfl, h, rfl⟩
  | reset =>
    obtain ⟨o, hstep, -, hsound⟩ := h.step_eq ha .reset
    obtain rfl := Except.ok.inj hstep
    exact ⟨[_], run_cons_eq_ok.mpr ⟨_, [], rfl, rfl, rfl⟩, hsound, rfl⟩
  | process frame =>
    obtain ⟨o, hprocess, -, hsound⟩ := h.process_eq ha frame
    refine ⟨[o], run_cons_eq_ok.mpr ⟨o, [], hprocess, rfl, rfl⟩, hsound, ?_⟩
    change Handle.process (some e) frame = _
    simp [Handle.process, hprocess, Call.replyOf, after]

end Estimator

namespace HandleTable

variable {slots : Nat}

/-- The commands passed on to the estimator in a slot, out of the requests on all of them. -/
def commandsTo (slot : Fin slots) (requests : List (Request slots)) : List Command :=
  requests.flatMap fun request =>
    if request.slot = some slot then request.call.command?.toList else []

/-- None of the requests replaces or drops what the slot holds. -/
def Keeps (slot : Fin slots) (requests : List (Request slots)) : Prop :=
  ∀ request ∈ requests, request.slot = some slot → request.call.keeps

instance (slot : Fin slots) (requests : List (Request slots)) : Decidable (Keeps slot requests) :=
  inferInstanceAs (Decidable (∀ request ∈ requests, _ → _))

/-- Each answer to a request on the slot is that of one estimator, which has been given the calls
on this slot alone. -/
def Serves (e : Estimator) (slot : Fin slots) (requests : List (Request slots))
    (answers : List Answer) : Prop :=
  ∀ n request, requests[n]? = some request → request.slot = some slot →
    ∃ before outcomes, e.run (commandsTo slot (requests.take n)) = .ok before ∧
      (e.after before).run request.call.command?.toList = .ok outcomes ∧
      answers[n]? = some ⟨request.call.replyOf ((e.after before).after outcomes),
        outcomes.flatMap Outcome.events⟩

/-- The answers of an empty handle, which do not change the table. -/
structure Refuses (table : HandleTable slots) (slot : Option (Fin slots)) : Prop where
  reset_eq : table.answer ⟨slot, .reset⟩ = (table, ⟨.status Handle.nullHandle, []⟩)
  process_eq : ∀ frame,
    table.answer ⟨slot, .process frame⟩ = (table, ⟨.delay Handle.delayError, []⟩)
  lastDelay_eq : table.answer ⟨slot, .lastDelay⟩ = (table, ⟨.delay Handle.delayError, []⟩)
  destroy_eq : table.answer ⟨slot, .destroy⟩ = (table, ⟨.nothing, []⟩)

theorem answer_of_empty {table : HandleTable slots} {slot : Option (Fin slots)} {call : Call}
    {reply : Reply} {events : List Event} (h : table.handle slot = none)
    (hanswer : Handle.answer none call = ⟨none, reply, events⟩) :
    table.answer ⟨slot, call⟩ = (table, ⟨reply, events⟩) := by
  cases slot with
  | none => simp [answer, hanswer]
  | some slot =>
    have hempty : table[slot] = none := h
    have hset : table.set slot none = table := by
      ext i hi : 1
      rw [Vector.getElem_set]
      split
      · subst i
        exact hempty.symm
      · rfl
    simp [answer, hempty, hanswer, hset]

theorem refuses_of_empty {table : HandleTable slots} {slot : Option (Fin slots)}
    (h : table.handle slot = none) : Refuses table slot :=
  ⟨answer_of_empty h rfl, fun _ => answer_of_empty h rfl, answer_of_empty h rfl,
    answer_of_empty h rfl⟩

theorem answer_created {table : HandleTable slots} {slot : Fin slots} {maxDelay lookahead : Int32}
    (h : (table.answer ⟨some slot, .create maxDelay lookahead⟩).2.reply = .created true) :
    ∃ d e, Dimensions.ofSigned maxDelay lookahead = .ok d ∧ (Estimator.create d).value = .ok e ∧
      (table.answer ⟨some slot, .create maxDelay lookahead⟩).1.handle (some slot) = some e := by
  rw [answer_snd] at h
  have hsome : (Handle.create maxDelay lookahead).value.isSome = true := Reply.created.inj h
  obtain ⟨e, he⟩ := Option.isSome_iff_exists.mp hsome
  obtain ⟨-, -, hsigned, ha, rfl⟩ := Handle.create_eq_some he
  exact ⟨_, _, hsigned, congrArg Logged.value (Estimator.create_fresh ha),
    (answer_handle_self _ _ _).trans he⟩

section Lifetime

open Estimator

variable {d : Dimensions} {e : Estimator} {table : HandleTable slots} {slot : Fin slots}
  {requests : List (Request slots)}

/-- Requests that keep the estimator in a slot give it their commands. -/
theorem run_handle (h : table.handle (some slot) = some e) (hs : Sound d e) (ha : d.Accepted)
    (hkeeps : Keeps slot requests) :
    ∃ outcomes, e.run (commandsTo slot requests) = .ok outcomes ∧ Sound d (e.after outcomes) ∧
      (table.run requests).1.handle (some slot) = some (e.after outcomes) := by
  induction requests generalizing table e with
  | nil => exact ⟨[], rfl, hs, h⟩
  | cons request requests ih =>
    rcases List.forall_mem_cons.mp hkeeps with ⟨hfirst, hrest⟩
    rcases request with ⟨named, call⟩
    rw [run_cons, commandsTo, List.flatMap_cons]
    by_cases hslot : named = some slot
    · subst hslot
      obtain ⟨first, hrun, hsound, hanswer⟩ := hs.answer_eq ha (hfirst rfl)
      have hleft : (table.answer ⟨some slot, call⟩).1.handle (some slot) =
          some (e.after first) := by
        rw [answer_handle_self, h, hanswer]
      obtain ⟨rest, hrest, hsound', hhandle⟩ := ih hleft hsound hrest
      rw [if_pos rfl]
      refine ⟨first ++ rest, run_append_eq_ok hrun hrest, ?_, ?_⟩
      · rwa [after_append]
      · rwa [after_append]
    · rw [if_neg hslot]
      exact ih ((answer_handle_of_ne table hslot).trans h) hs hrest

theorem Keeps.take (h : Keeps slot requests) (n : Nat) : Keeps slot (requests.take n) :=
  fun request hmem => h request (List.mem_of_mem_take hmem)

theorem run_serves (h : table.handle (some slot) = some e) (hs : Sound d e) (ha : d.Accepted)
    (hkeeps : Keeps slot requests) : Serves e slot requests (table.run requests).2 := by
  intro n request hrequest hslot
  obtain ⟨before, hbefore, hsound, hhandle⟩ := run_handle h hs ha (hkeeps.take n)
  obtain ⟨outcomes, hrun, -, hanswer⟩ :=
    hsound.answer_eq ha (hkeeps request (List.mem_of_getElem? hrequest) hslot)
  refine ⟨before, outcomes, hbefore, hrun, ?_⟩
  rw [run_getElem? table hrequest, answer_snd, hslot, hhandle, hanswer]

/-- What is answered later does not change what has been answered. -/
theorem Serves.append {answers : List Answer} (h : Serves e slot requests answers)
    (later : List Answer) : Serves e slot requests (answers ++ later) := by
  intro n request hrequest hslot
  obtain ⟨before, outcomes, hbefore, hrun, hanswer⟩ := h n request hrequest hslot
  refine ⟨before, outcomes, hbefore, hrun, ?_⟩
  rw [List.getElem?_append_left (List.getElem?_eq_some_iff.mp hanswer).1, hanswer]

end Lifetime

/-- A lifetime begins with a call that creates an estimator and lasts while calls keep it. -/
theorem serves_created {past life future : List (Request slots)} {slot : Fin slots}
    {maxDelay lookahead : Int32} {answers : List Answer}
    (hanswers : answers = ((empty slots).run
      (past ++ ⟨some slot, .create maxDelay lookahead⟩ :: (life ++ future))).2)
    (hkeeps : Keeps slot life)
    (hcreated : answers[past.length]?.map Answer.reply = some (.created true)) :
    ∃ d e, Dimensions.ofSigned maxDelay lookahead = .ok d ∧ (Estimator.create d).value = .ok e ∧
      Serves e slot life (answers.drop (past.length + 1)) := by
  have hlength := run_length (empty slots) past
  rw [run_append, run_cons] at hanswers
  rw [hanswers, List.getElem?_append_right (by omega)] at hcreated
  obtain ⟨d, e, hsigned, hcreate, hhandle⟩ := answer_created (by simpa using hcreated)
  obtain ⟨ha, rfl⟩ := Estimator.create_value_eq hcreate
  refine ⟨d, _, hsigned, hcreate, ?_⟩
  have hserves := run_serves hhandle (Estimator.sound_fresh ha) ha hkeeps
  have hdrop : answers.drop (past.length + 1) =
      ((((empty slots).run past).1.answer ⟨some slot, .create maxDelay lookahead⟩).1.run
        (life ++ future)).2 := by
    rw [hanswers, List.drop_append, hlength]
    simp [hlength]
  rw [hdrop, run_append]
  exact hserves.append _

/-- An estimator in slot 0, called in turn with slot 1, where nothing was created. -/
def inTurn : List (Request 2) :=
  (List.replicate 9 [⟨0xFFFFFFFF, 0xFFFFFFFF⟩, ⟨0, 0⟩]).flatten.flatMap fun frame =>
    [⟨some 0, .process frame⟩, ⟨some 1, .process frame⟩]

end HandleTable
end EchoDelay
