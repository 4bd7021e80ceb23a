import EchoDelay.Estimator.Process
import EchoDelay.Estimator.Reading

/-!
# Handles

A handle holds an estimator or nothing, and is used through calls that take and give 32-bit signed
numbers. A call never fails: an empty handle answers with a code of its own, and so does one whose
estimator faults. No frame makes an estimator fault that `create` has made, so the buffers that a
frame would have changed before a fault are not kept track of.
-/
namespace EchoDelay

/-- An estimator, or nothing. -/
abbrev Handle := Option Estimator

inductive Call where
  /-- Drops what the handle holds and asks for a new estimator. -/
  | create (maxDelay lookahead : Int32)
  | destroy
  | reset
  | process (frame : Frame)
  | lastDelay
  deriving DecidableEq, Repr

inductive Reply where
  | nothing
  /-- Whether there is an estimator now. -/
  | created (success : Bool)
  | status (code : Int32)
  | delay (code : Int32)
  deriving DecidableEq, Repr

structure Response where
  handle : Handle
  reply : Reply
  events : List Event

namespace Handle

def version : String := "0.1.0"

def success : Int32 := 0

/-- The status of a call that needs an estimator and has none. -/
def nullHandle : Int32 := -1

/-- Given in place of a delay by an empty handle. -/
def delayError : Int32 := -1

/-- A handle on a new estimator. Refused dimensions are reported once, and a fault gives an empty
handle. -/
def create (maxDelay lookahead : Int32) : Logged Handle :=
  match Dimensions.ofSigned maxDelay lookahead with
  | .error (.refused cause) => ⟨none, [.handleRefused maxDelay lookahead cause]⟩
  | .error (.faulted _) => ⟨none, []⟩
  | .ok dimensions =>
    let made := Estimator.create dimensions
    ⟨made.value.toOption, made.events⟩

/-- A fault is answered with the code of an error. The response then holds the estimator of before,
in place of one that the frame has changed in part. -/
def process (h : Handle) (frame : Frame) : Response :=
  match h with
  | none => ⟨none, .delay delayError, []⟩
  | some e =>
    match e.process frame with
    | .ok outcome =>
      ⟨some outcome.estimator, .delay outcome.estimator.lastDelayCode, outcome.events⟩
    | .error _ => ⟨some e, .delay delayError, []⟩

def reset : Handle → Response
  | none => ⟨none, .status nullHandle, []⟩
  | some e => ⟨some e.reset, .status success, []⟩

def lastDelay : Handle → Response
  | none => ⟨none, .delay delayError, []⟩
  | some e => ⟨some e, .delay e.lastDelayCode, []⟩

def answer (h : Handle) : Call → Response
  | .create maxDelay lookahead =>
    let made := create maxDelay lookahead
    ⟨made.value, .created made.value.isSome, made.events⟩
  | .destroy => ⟨none, .nothing, []⟩
  | .reset => h.reset
  | .process frame => h.process frame
  | .lastDelay => h.lastDelay

end Handle
end EchoDelay
