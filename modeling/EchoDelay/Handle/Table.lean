import EchoDelay.Handle.Basic

/-!
# Tables of handles

A table has a fixed number of slots, each with a handle. A call names a slot, or none of them: it
is then answered as by an empty handle, and no slot changes.
-/
namespace EchoDelay

abbrev HandleTable (slots : Nat) := Vector Handle slots

namespace HandleTable

variable {slots : Nat}

def empty (slots : Nat) : HandleTable slots := Vector.replicate slots none

/-- A call on a slot, or on the null handle. -/
structure Request (slots : Nat) where
  slot : Option (Fin slots)
  call : Call
  deriving DecidableEq, Repr

/-- What a call gives, without the handle that it leaves. -/
structure Answer where
  reply : Reply
  events : List Event
  deriving DecidableEq

def answer (table : HandleTable slots) (request : Request slots) : HandleTable slots × Answer :=
  match request.slot with
  | none =>
    let response := Handle.answer none request.call
    (table, ⟨response.reply, response.events⟩)
  | some slot =>
    let response := Handle.answer table[slot] request.call
    (table.set slot response.handle, ⟨response.reply, response.events⟩)

def run (table : HandleTable slots) : List (Request slots) → HandleTable slots × List Answer
  | [] => (table, [])
  | request :: requests =>
    let (next, first) := table.answer request
    let (last, rest) := next.run requests
    (last, first :: rest)

end HandleTable
end EchoDelay
