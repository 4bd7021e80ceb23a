import EchoDelay.Proofs.Lifetime

/-!
# The codes of delays

A handle returns a delay in 32 signed bits, where -1 and -2 have a meaning of their own. Signed
dimensions allow delays beyond the positive half of these bits, which come out negative. The
greatest of them comes out as -3, so every code still says what it stands for.
-/
namespace EchoDelay

/-- A delay is read back from its code without the sign. -/
theorem delayCode_toUInt32 {delay : Nat} (h : delay < 4294967296) :
    (delayCode (some delay)).toUInt32.toNat = delay := by
  rw [delayCode, Int32.toUInt32_ofNat', UInt32.toNat_ofNat', Nat.mod_eq_of_lt h]

theorem delayCode_ne_of_lt {delay : Nat} (h : delay < 4294967294) :
    delayCode (some delay) ≠ unknownDelay ∧ delayCode (some delay) ≠ Handle.delayError := by
  have hread := delayCode_toUInt32 (by omega : delay < 4294967296)
  constructor
  · intro hcode
    rw [hcode, show unknownDelay.toUInt32.toNat = 4294967294 by decide] at hread
    omega
  · intro hcode
    rw [hcode, show Handle.delayError.toUInt32.toNat = 4294967295 by decide] at hread
    omega

/-- The two greatest numbers of 32 bits are the only ones that are encoded as something else. -/
example : delayCode (some 4294967293) = -3 ∧ delayCode (some 4294967294) = unknownDelay ∧
    delayCode (some 4294967295) = Handle.delayError := by decide

namespace Estimator

/-- The code says of an estimator with so many candidates which delay it has, if it has one. -/
structure Encodes (historySize : Nat) (e : Estimator) (code : Int32) : Prop where
  unknown_iff : code = unknownDelay ↔ e.lastDelay = none
  ne_error : code ≠ Handle.delayError
  unsigned_eq : ∀ delay ∈ e.lastDelay, code.toUInt32.toNat = delay
  signed_eq : historySize ≤ 2147483648 → ∀ delay ∈ e.lastDelay,
    code.toInt = delay ∧ 0 ≤ code.toInt ∧ code.toInt < historySize

variable {d : Dimensions} {e : Estimator}

theorem Sound.encodes (h : Sound d e) (hfits : d.candidates < 4294967295) :
    Encodes d.candidates e e.lastDelayCode := by
  rw [lastDelayCode]
  cases hlast : e.lastDelay with
  | none => exact ⟨iff_of_true rfl hlast, by decide, by simp [hlast], by simp [hlast]⟩
  | some delay =>
    have hlt := h.lastDelay_lt delay hlast
    obtain ⟨hunknown, herror⟩ := delayCode_ne_of_lt (by omega : delay < 4294967294)
    refine ⟨iff_of_false hunknown (by simp [hlast]), herror, ?_, ?_⟩
    · intro delay' hdelay
      obtain rfl := Option.some.inj (hlast.symm.trans hdelay)
      exact delayCode_toUInt32 (by omega)
    · intro hsmall delay' hdelay
      obtain rfl := Option.some.inj (hlast.symm.trans hdelay)
      have hcode : (delayCode (some delay)).toInt = delay := Int32.toInt_ofNat_of_lt (by omega)
      omega

end Estimator

namespace Handle

open Estimator

/-- The handle that calls leave, one after the other. -/
def after (h : Handle) (calls : List Call) : Handle :=
  calls.foldl (fun h call => (h.answer call).handle) h

variable {d : Dimensions} {e : Estimator} {calls : List Call}

/-- Calls that keep the estimator keep it sound. -/
theorem after_eq_some (h : Sound d e) (ha : d.Accepted) (hkeeps : ∀ call ∈ calls, call.keeps) :
    ∃ held, after (some e) calls = some held ∧ Sound d held := by
  induction calls generalizing e with
  | nil => exact ⟨e, rfl, h⟩
  | cons call calls ih =>
    rw [List.forall_mem_cons] at hkeeps
    obtain ⟨outcomes, -, hsound, hanswer⟩ := h.answer_eq ha hkeeps.1
    rw [after, List.foldl_cons, hanswer]
    exact ih hsound hkeeps.2

/-- Whatever a new handle has been used for, the code it returns next is that of the delay which the
estimator then has. The code of an error is left to the null handle. -/
theorem answer_encodes {maxDelay lookahead : Int32}
    (hcreated : (create maxDelay lookahead).value = some e)
    (hkeeps : ∀ call ∈ calls, call.keeps) :
    ∃ (historySize : Nat) (held : Estimator),
      (historySize : Int) = maxDelay.toInt + lookahead.toInt ∧
      e.dimensions.historySize = .ok historySize ∧ after (some e) calls = some held ∧
      (∃ code, answer (some held) .lastDelay = ⟨some held, .delay code, []⟩ ∧
        Encodes historySize held code) ∧
      (∀ frame, ∃ next code events,
        answer (some held) (.process frame) = ⟨some next, .delay code, events⟩ ∧
          Encodes historySize next code) ∧
      (answer none .lastDelay).reply = .delay delayError ∧
      ∀ frame, (answer none (.process frame)).reply = .delay delayError := by
  obtain ⟨hmax, hlook, -, ha, rfl⟩ := create_eq_some hcreated
  have hfits := Dimensions.clamped_candidates_lt maxDelay lookahead
  obtain ⟨held, hafter, hsound⟩ := after_eq_some (sound_fresh ha) ha hkeeps
  refine ⟨_, held, Dimensions.clamped_candidates hmax hlook, ha.historySize_eq, hafter,
    ⟨_, rfl, hsound.encodes hfits⟩, ?_, rfl, fun _ => rfl⟩
  intro frame
  have hkeep : (Call.process frame).keeps = true := rfl
  obtain ⟨outcomes, -, hnext, hanswer⟩ := hsound.answer_eq ha hkeep
  exact ⟨_, _, _, hanswer, hnext.encodes hfits⟩

/-- Frames of a near end that is one frame late. -/
def lateCalls : List Call :=
  (List.replicate 9 [⟨0xFFFFFFFF, 0⟩, ⟨0, 0xFFFFFFFF⟩]).flatten.map .process

theorem answer_encodes_late : ∃ e held, (create 2 0).value = some e ∧
    (∀ call ∈ lateCalls, call.keeps) ∧ after (some e) lateCalls = some held ∧
    answer (some held) .lastDelay = ⟨some held, .delay 1, []⟩ ∧ Encodes 2 held 1 := by
  have hcreated : (create 2 0).value = some (fresh ⟨2, 0⟩ (by decide)) := by decide +kernel
  have hkeeps : ∀ call ∈ lateCalls, call.keeps := by decide
  obtain ⟨historySize, held, hsize, -, hafter, ⟨code, hanswer, hencodes⟩, -⟩ :=
    answer_encodes hcreated hkeeps
  have hcode : (after (create 2 0).value lateCalls).map lastDelayCode = some 1 := by
    decide +kernel
  rw [hcreated, hafter, Option.map_some, Option.some.injEq] at hcode
  obtain rfl : historySize = 2 := by
    rw [show (2 : Int32).toInt + (0 : Int32).toInt = 2 by decide] at hsize
    omega
  have hdelay : code = 1 := by
    rw [← hcode]
    exact (Reply.delay.inj (congrArg Response.reply hanswer)).symm
  subst hdelay
  exact ⟨_, held, hcreated, hkeeps, hafter, hanswer, hencodes⟩

end Handle
end EchoDelay
