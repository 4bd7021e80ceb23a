import EchoDelay.Arithmetic.Decimal
import EchoDelay.Dimensions

/-!
# Events

An operation reports what an observer should know as a list of events, each with a level and a text.
-/
namespace EchoDelay

inductive Event where
  /-- An estimator was asked for with dimensions that are refused. -/
  | dimensionsRefused (dimensions : Dimensions) (cause : DimensionError)
  /-- A handle was asked for with signed dimensions that are refused. -/
  | handleRefused (maxDelay lookahead : Int32) (cause : DimensionError)
  /-- The estimate moved, at the given adaptive threshold. -/
  | delayChanged (before : Option Nat) (after : Nat) (minimumProbability : Q9)
  deriving DecidableEq

inductive Level where
  | warn
  | debug
  deriving DecidableEq, Repr

def Level.name : Level → String
  | .warn => "WARN"
  | .debug => "DEBUG"

/-- The text of a delay that may be unknown. -/
def describeDelay : Option Nat → String
  | none => "None"
  | some delay => s!"Some({delay})"

namespace Event

def level : Event → Level
  | dimensionsRefused _ _ => .warn
  | handleRefused _ _ _ => .warn
  | delayChanged _ _ _ => .debug

def message : Event → String
  | dimensionsRefused d cause =>
    s!"Invalid delay estimator config (max_delay: {d.maxDelay}, lookahead: {d.lookahead}): "
      ++ cause.message
  | handleRefused maxDelay lookahead cause =>
    s!"wde_create({maxDelay.toInt}, {lookahead.toInt}) failed: " ++ cause.message
  | delayChanged before after minimumProbability =>
    s!"Delay estimate changed: {describeDelay before} -> {after} "
      ++ s!"(minimum probability {minimumProbability.decimal})"

/-- The line of the event in a log. -/
def line (event : Event) : String := event.level.name ++ " " ++ event.message

end Event

/-- A result together with the events reported on the way to it. -/
structure Logged (α : Type) where
  value : α
  events : List Event

end EchoDelay
