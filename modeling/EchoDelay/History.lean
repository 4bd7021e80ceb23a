import EchoDelay.Arithmetic.Checked

/-!
# Histories

A history keeps the most recent values of a stream, the newest first, so that the position of a
value is its age. The number of slots is fixed and never zero.

The slots can also be kept in cells that are overwritten in place. On a push all but the last of
them then move one place on, the last one first, and the value takes the first cell. Every cell that
is read or written exists, so nothing faults, and the result is that of `push`, which drops the
oldest value.
-/
namespace EchoDelay

theorem replicate_eq_map_range {α : Type} {f : Nat → α} {value : α} (n : Nat)
    (h : ∀ i, f i = value) : List.replicate n value = (List.range n).map f := by
  have hmap : (List.range n).map f = List.replicate (List.range n).length value :=
    List.map_eq_replicate_iff.mpr fun i _ => h i
  rw [hmap, List.length_range]

theorem getElem?_map_range {α : Type} (f : Nat → α) {n i : Nat} (hi : i < n) :
    ((List.range n).map f)[i]? = some (f i) := by
  rw [List.getElem?_map, List.getElem?_range hi, Option.map_some]

structure History (α : Type) where
  newest : α
  older : List α
  deriving DecidableEq, Repr

namespace History

variable {α : Type}

/-- The values by age. -/
def slots (h : History α) : List α := h.newest :: h.older

/-- All of the `n` slots hold `value`. -/
def filled (value : α) (n : Nat) (_ : 0 < n) : History α := ⟨value, List.replicate (n - 1) value⟩

def size (h : History α) : Nat := h.slots.length

/-- Overwrites every slot. -/
def fill (h : History α) (value : α) : History α := ⟨value, h.older.map fun _ => value⟩

/-- Every value becomes one push older, and the oldest one is dropped. -/
def push (h : History α) (value : α) : History α := ⟨value, h.slots.dropLast⟩

def oldest (h : History α) : α := h.slots.getLast (List.cons_ne_nil _ _)

theorem slots_injective : Function.Injective (slots (α := α)) := by
  intro a b h
  cases a
  cases b
  cases h
  rfl

@[simp] theorem size_fill (h : History α) (value : α) : (h.fill value).size = h.size := by
  simp [size, slots, fill]

@[simp] theorem size_push (h : History α) (value : α) : (h.push value).size = h.size := by
  simp [size, slots, push]

theorem slots_push (h : History α) (value : α) :
    (h.push value).slots = value :: h.slots.dropLast := rfl

/-- A history of one value takes in no news of it. -/
theorem push_eq_self {h : History α} {value : α} (hall : ∀ v ∈ h.slots, v = value) :
    h.push value = h := by
  apply slots_injective
  have hslots : h.slots = List.replicate (h.older.length + 1) value :=
    List.eq_replicate_iff.mpr ⟨rfl, hall⟩
  rw [slots_push, hslots, List.dropLast_replicate, Nat.add_sub_cancel, List.replicate_succ]

theorem slots_fill (h : History α) (value : α) :
    (h.fill value).slots = List.replicate h.size value := by
  simp [slots, fill, size, List.map_const', List.replicate_succ]

theorem slots_filled (value : α) (n : Nat) (h : 0 < n) :
    (filled value n h).slots = List.replicate n value := by
  cases n with
  | zero => omega
  | succ n => simp [slots, filled, List.replicate_succ]

@[simp] theorem size_filled (value : α) (n : Nat) (h : 0 < n) : (filled value n h).size = n := by
  simp [size, slots_filled]

theorem fill_eq_filled {h : History α} {n : Nat} (value : α) (hn : 0 < n) (hsize : h.size = n) :
    h.fill value = filled value n hn := by
  have hlength : h.older.length = n - 1 := by
    rw [← hsize]
    rfl
  rw [fill, filled, List.map_const', hlength]

@[simp] theorem fill_filled (before value : α) (n : Nat) (h : 0 < n) :
    (filled before n h).fill value = filled value n h :=
  fill_eq_filled value h (size_filled before n h)

/-- A push moves every value to the next age. -/
theorem slots_push_ages {h : History α} {n : Nat} {before after : Nat → α}
    {value : α} (hslots : h.slots = (List.range n).map before) (hvalue : after 0 = value)
    (hages : ∀ i, after (i + 1) = before i) :
    (h.push value).slots = (List.range n).map after := by
  cases n with
  | zero => cases hslots
  | succ n =>
    rw [slots_push, hslots, List.range_succ, List.map_append, List.map_singleton,
      List.dropLast_concat, ← List.range_succ, List.range_succ_eq_map, List.map_cons, List.map_map,
      hvalue]
    congr 1
    exact List.map_congr_left fun i _ => (hages i).symm

theorem getLast?_slots (h : History α) : h.slots.getLast? = some h.oldest :=
  List.getLast?_eq_some_getLast _

/-! ### Cells -/

def readCell (i : Nat) : EStateM Fault (List α) α := fun cells =>
  match cells[i]? with
  | some value => .ok value cells
  | none => .error (.outOfBounds cells.length i) cells

def writeCell (i : Nat) (value : α) : EStateM Fault (List α) Unit := fun cells =>
  if i < cells.length then .ok () (cells.set i value)
  else .error (.outOfBounds cells.length i) cells

/-- The position of the last cell. -/
def lastCell : EStateM Fault (List α) Nat := fun cells =>
  match checkedDifference cells.length 1 with
  | .ok last => .ok last cells
  | .error fault => .error fault cells

/-- The first `count` cells move one place on. The last of them goes first, so that each is read
before it is overwritten. -/
def moveOn : Nat → EStateM Fault (List α) Unit
  | 0 => pure ()
  | count + 1 => do
    let value ← readCell count
    writeCell (count + 1) value
    moveOn count

def pushInPlace (value : α) : EStateM Fault (List α) Unit := do
  let last ← lastCell
  moveOn last
  writeCell 0 value

def clearInPlace (blank : α) : EStateM Fault (List α) Unit :=
  modify (List.map fun _ => blank)

def oldestInPlace : EStateM Fault (List α) α := do
  let last ← lastCell
  readCell last

variable {cells : List α} {i : Nat} {blank : α}

theorem readCell_eq {value : α} (h : cells[i]? = some value) :
    readCell i cells = .ok value cells := by
  rw [readCell, h]

theorem writeCell_eq (h : i < cells.length) (value : α) :
    writeCell i value cells = .ok () (cells.set i value) := if_pos h

theorem lastCell_eq (newest : α) (older : List α) :
    lastCell (newest :: older) = .ok older.length (newest :: older) := by
  have hlast : checkedDifference (newest :: older).length 1 = .ok older.length :=
    if_pos (Nat.succ_pos _)
  rw [lastCell, hlast]

/-- The first cell is kept, and each cell up to the last that moves is read as it was, although the
one after it has been overwritten by then. -/
theorem moveOn_eq (newest : α) {older : List α} {count : Nat} (h : count ≤ older.length) :
    moveOn count (newest :: older) =
      .ok () (newest :: ((newest :: older).take count ++ older.drop count)) := by
  induction count generalizing older with
  | zero => rfl
  | succ count ih =>
    have hcell : count < (newest :: older).length := Nat.lt_succ_of_lt h
    -- The write after cell `count` touches none of the cells that are still to be read.
    have hbefore (value : α) :
        (newest :: older.set count value).take count = (newest :: older).take count := by
      rw [← List.set_cons_succ, List.take_set_of_le (Nat.le_succ count)]
    have hafter (value : α) :
        (older.set count value).drop count = value :: older.drop (count + 1) := by
      rw [List.drop_set, if_neg (Nat.lt_irrefl count), Nat.sub_self, List.drop_eq_getElem_cons h,
        List.set_cons_zero]
    rw [moveOn, bind_apply_of_eq_ok (readCell_eq (List.getElem?_eq_getElem hcell)),
      bind_apply_of_eq_ok (writeCell_eq (Nat.succ_lt_succ h) _), List.set_cons_succ,
      ih (by rw [List.length_set]; exact Nat.le_of_succ_le h), hbefore, hafter,
      List.take_succ_eq_append_getElem hcell, List.append_assoc, List.singleton_append]

/-- Moving every cell but the last on, and then taking the first, is a push. -/
theorem pushInPlace_eq (h : History α) (value : α) :
    pushInPlace value h.slots = .ok () (h.push value).slots := by
  rw [slots, pushInPlace, bind_apply_of_eq_ok (lastCell_eq ..),
    bind_apply_of_eq_ok (moveOn_eq _ (Nat.le_refl _)), writeCell_eq (Nat.succ_pos _), slots_push,
    slots, List.set_cons_zero, List.drop_length, List.append_nil, List.dropLast_eq_take]
  rfl

theorem clearInPlace_eq (h : History α) :
    clearInPlace blank h.slots = .ok () (h.fill blank).slots := rfl

theorem oldestInPlace_eq (h : History α) : oldestInPlace h.slots = .ok h.oldest h.slots := by
  have hlast : h.slots[h.older.length]? = some h.oldest := by
    rw [← getLast?_slots, List.getLast?_eq_getElem?]
    rfl
  rw [oldestInPlace, slots, bind_apply_of_eq_ok (lastCell_eq ..)]
  exact readCell_eq hlast

end History
end EchoDelay
