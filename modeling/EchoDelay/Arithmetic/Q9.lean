import EchoDelay.Arithmetic.Checked

/-!
# Fixed point with nine fractional bits

A `Q9` is a number of steps of 1/512, kept in 32 signed bits. Addition and subtraction are checked,
`saturatingAdd` clamps, and `smoothToward` moves a running mean a fraction of the way to a target,
the step rounded toward zero from either side. `smoothInPlace` does the same to a mean that is kept
in a cell, which a fault leaves as it was.
-/
namespace EchoDelay

@[ext]
structure Q9 where
  /-- The value in steps of 1/512. -/
  raw : Int
  least_le_raw : -2147483648 ≤ raw
  raw_le_greatest : raw ≤ 2147483647
  deriving DecidableEq

namespace Q9

theorem raw_injective : Function.Injective raw := fun _ _ => Q9.ext

/-- The value with the same residue modulo two to the 32. -/
def wrap (v : Int) : Q9 where
  raw := Int.bmod v 4294967296
  least_le_raw := by have := Int.le_bmod (x := v) (m := 4294967296) (by decide); omega
  raw_le_greatest := by have := Int.bmod_lt (x := v) (m := 4294967296) (by decide); omega

/-- The exact result `v` of an operation, if 32 signed bits hold it. -/
def checked (operation : Operation) (v : Int) : Except Fault Q9 :=
  if h : -2147483648 ≤ v ∧ v ≤ 2147483647 then .ok ⟨v, h.1, h.2⟩
  else .error (.overflow operation)

/-- The value nearest to `v`. -/
def clamp (v : Int) : Q9 := ⟨max (-2147483648) (min v 2147483647), by omega, by omega⟩

theorem wrap_raw_of_fits {v : Int} (hl : -2147483648 ≤ v) (hg : v ≤ 2147483647) :
    (wrap v).raw = v := by
  show Int.bmod v 4294967296 = v
  rw [Int.bmod_eq_of_le] <;> omega

/-- The integer `v` scaled by 512; the bits above the 32nd are lost. -/
def ofInt (v : Int) : Q9 := wrap (512 * v)

def zero : Q9 := ⟨0, by decide, by decide⟩
def one : Q9 := ⟨512, by decide, by decide⟩

/-- The smallest step. -/
def epsilon : Q9 := ⟨1, by decide, by decide⟩

instance : LT Q9 := ⟨fun a b => a.raw < b.raw⟩
instance : LE Q9 := ⟨fun a b => a.raw ≤ b.raw⟩
instance : Ord Q9 := ⟨fun a b => compare a.raw b.raw⟩
instance (a b : Q9) : Decidable (a < b) := inferInstanceAs (Decidable (a.raw < b.raw))
instance (a b : Q9) : Decidable (a ≤ b) := inferInstanceAs (Decidable (a.raw ≤ b.raw))
instance : Max Q9 := ⟨fun a b => if a ≤ b then b else a⟩
instance : Min Q9 := ⟨fun a b => if a ≤ b then a else b⟩

theorem lt_iff {a b : Q9} : a < b ↔ a.raw < b.raw := Iff.rfl
theorem le_iff {a b : Q9} : a ≤ b ↔ a.raw ≤ b.raw := Iff.rfl

@[simp] theorem max_raw (a b : Q9) : (max a b).raw = max a.raw b.raw := by
  show (if a ≤ b then b else a).raw = max a.raw b.raw
  split <;> rename_i h <;> rw [le_iff] at h <;> omega

@[simp] theorem min_raw (a b : Q9) : (min a b).raw = min a.raw b.raw := by
  show (if a ≤ b then a else b).raw = min a.raw b.raw
  split <;> rename_i h <;> rw [le_iff] at h <;> omega

def add (a b : Q9) : Except Fault Q9 := checked .add (a.raw + b.raw)
def sub (a b : Q9) : Except Fault Q9 := checked .subtract (a.raw - b.raw)
def neg (a : Q9) : Except Fault Q9 := checked .negate (-a.raw)
def saturatingAdd (a b : Q9) : Q9 := clamp (a.raw + b.raw)

/-- Division by a power of two, rounded down. -/
def shiftRight (a : Q9) (places : Nat) : Q9 where
  raw := a.raw >>> places
  least_le_raw := by
    rw [Int.shiftRight_eq_div_pow]
    have h := a.least_le_raw
    have hp : (0 : Int) < ((2 ^ places : Nat) : Int) := by exact_mod_cast Nat.two_pow_pos places
    rw [Int.le_ediv_iff_mul_le hp]
    have : (2147483648 : Int) ≤ 2147483648 * ((2 ^ places : Nat) : Int) := by omega
    omega
  raw_le_greatest := by
    rw [Int.shiftRight_eq_div_pow]
    have h := a.raw_le_greatest
    have hp : (0 : Int) < ((2 ^ places : Nat) : Int) := by exact_mod_cast Nat.two_pow_pos places
    have : a.raw / ((2 ^ places : Nat) : Int) < 2147483648 := by
      rw [Int.ediv_lt_iff_lt_mul hp]
      omega
    omega

/-- Shifts the magnitude and keeps the sign, so that both signs are rounded toward zero. -/
def shiftTowardZero (a : Q9) (places : Nat) : Except Fault Q9 :=
  if a.raw < 0 then do
    let magnitude ← a.neg
    (magnitude.shiftRight places).neg
  else .ok (a.shiftRight places)

/-- One step of a running mean: it moves by the gap to the target over two to the `shifts`. -/
def smoothToward (mean target : Q9) (shifts : Nat) : Except Fault Q9 :=
  if 32 ≤ shifts then .error .shiftRange else do
    let gap ← target.sub mean
    let move ← gap.shiftTowardZero shifts
    mean.add move

/-- The step on a mean that is kept in place, which is overwritten last of all. -/
def smoothInPlace (target : Q9) (shifts : Nat) : EStateM Fault Q9 Unit := do
  if 32 ≤ shifts then throw .shiftRange
  let gap ← ofExcept (target.sub (← get))
  let move ← ofExcept (gap.shiftTowardZero shifts)
  let next ← ofExcept ((← get).add move)
  set next

/-- The end of a program that only overwrites a cell, by a result if there is one. -/
def overwritten (old : Q9) : Except Fault Q9 → EStateM.Result Fault Q9 Unit
  | .ok next => .ok () next
  | .error fault => .error fault old

theorem smoothInPlace_eq (mean target : Q9) (shifts : Nat) :
    smoothInPlace target shifts mean = overwritten mean (mean.smoothToward target shifts) := by
  rw [smoothInPlace, smoothToward]
  by_cases hshifts : 32 ≤ shifts
  · rw [if_pos hshifts, if_pos hshifts]
    rfl
  · rw [if_neg hshifts, if_neg hshifts]
    change (ofExcept (target.sub mean) >>= _ : EStateM Fault Q9 Unit) mean = _
    rw [ofExcept_bind_apply]
    cases target.sub mean with
    | error fault => rfl
    | ok gap =>
      change (ofExcept (gap.shiftTowardZero shifts) >>= _ : EStateM Fault Q9 Unit) mean =
        overwritten mean (gap.shiftTowardZero shifts >>= mean.add)
      rw [ofExcept_bind_apply]
      cases gap.shiftTowardZero shifts with
      | error fault => rfl
      | ok move =>
        change (ofExcept (mean.add move) >>= _ : EStateM Fault Q9 Unit) mean =
          overwritten mean (mean.add move)
        rw [ofExcept_bind_apply]
        cases mean.add move <;> rfl

end Q9
end EchoDelay
