/-!
# Faults

A fault is the cause for which a computation has no result: an exact value that its range does not
hold, a shift by too many places, a buffer that is too large, an index past the end, two sequences
of different length. Every fault has one text.
-/
namespace EchoDelay

inductive Operation where
  | add
  | subtract
  | multiply
  | negate
  deriving DecidableEq, Repr

def Operation.name : Operation → String
  | .add => "add"
  | .subtract => "subtract"
  | .multiply => "multiply"
  | .negate => "negate"

inductive Fault where
  /-- The exact result of the operation lies outside its range. -/
  | overflow (operation : Operation)
  /-- A word of 32 bits was to be shifted by 32 places or more. -/
  | shiftRange
  /-- A buffer would need more bytes than can be addressed. -/
  | capacity
  | outOfBounds (length index : Nat)
  /-- As many counts as rows were expected. -/
  | unequalLengths (rows counts : Nat)
  /-- Two tracks that are compared frame by frame have the same length. -/
  | unequalTracks (actual expected : Nat)
  deriving DecidableEq, Repr

private def inequality (note : String) (left right : Nat) : String :=
  s!"assertion `left == right` failed{note}\n  left: {left}\n right: {right}"

def Fault.message : Fault → String
  | .overflow operation => s!"attempt to {operation.name} with overflow"
  | .shiftRange => "assertion failed: shifts < 32"
  | .capacity => "capacity overflow"
  | .outOfBounds length index =>
    s!"index out of bounds: the len is {length} but the index is {index}"
  | .unequalLengths rows counts => inequality "" rows counts
  | .unequalTracks actual expected => inequality ": Length mismatch" actual expected

/-- Two computations in sequence have a result if the first has one and the second has one from
there. -/
theorem bind_eq_ok_iff {α β : Type} {first : Except Fault α} {next : α → Except Fault β}
    {result : β} :
    first >>= next = .ok result ↔ ∃ value, first = .ok value ∧ next value = .ok result := by
  cases first <;> simp [bind, Except.bind]

/-- Of two programs in sequence that change a state, the second goes on where the first ended. -/
theorem bind_apply_of_eq_ok {σ α β : Type} {first : EStateM Fault σ α}
    {next : α → EStateM Fault σ β} {before after : σ} {value : α}
    (h : first before = .ok value after) : (first >>= next) before = next value after := by
  simp [bind, EStateM.bind, h]

/-- A program that starts with a computation goes on with its result, or ends with its fault. -/
theorem ofExcept_bind_apply {σ α β : Type} (first : Except Fault α)
    (next : α → EStateM Fault σ β) (before : σ) :
    (ofExcept first >>= next : EStateM Fault σ β) before =
      match first with
      | .ok value => next value before
      | .error fault => .error fault before := by
  cases first <;> rfl

end EchoDelay
