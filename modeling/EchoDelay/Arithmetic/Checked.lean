import EchoDelay.Arithmetic.Fault

/-!
# Checked arithmetic

Results are computed exactly, in the natural numbers or the integers, and are then checked against
the range that has to hold them. A word has 32 bits, a size and an offset have 64. The two
conversions between sizes and offsets keep the residue modulo two to the 64.
-/
namespace EchoDelay

/-- Two to the 32. -/
def wordLimit : Nat := 4294967296

/-- Two to the 64. -/
def sizeLimit : Nat := 18446744073709551616

/-- Half of the sizes: offsets lie in [-offsetLimit, offsetLimit). -/
def offsetLimit : Nat := 9223372036854775808

/-- The exact result `n`, if it is below the limit. -/
def checkedBelow (limit : Nat) (operation : Operation) (n : Nat) : Except Fault Nat :=
  if n < limit then .ok n else .error (.overflow operation)

def checkedSize (operation : Operation) (n : Nat) : Except Fault Nat :=
  checkedBelow sizeLimit operation n

def checkedWord (operation : Operation) (n : Nat) : Except Fault Nat :=
  checkedBelow wordLimit operation n

/-- The difference of two unsigned numbers, which has to be one too. -/
def checkedDifference (a b : Nat) : Except Fault Nat :=
  if b ≤ a then .ok (a - b) else .error (.overflow .subtract)

def checkedOffset (operation : Operation) (v : Int) : Except Fault Int :=
  if -(offsetLimit : Int) ≤ v ∧ v < offsetLimit then .ok v else .error (.overflow operation)

/-- The offset with the same residue as the size. -/
def offsetOfSize (n : Nat) : Int := Int.bmod n sizeLimit

/-- The size with the same residue as the offset. -/
def sizeOfOffset (v : Int) : Nat := (v % sizeLimit).toNat

/-- A buffer holds four bytes per element and has fewer than `offsetLimit` bytes. -/
def checkedCapacity (elements : Nat) : Except Fault Unit :=
  if 4 * elements < offsetLimit then .ok () else .error .capacity

theorem checkedSize_of_lt (operation : Operation) {n : Nat} (h : n < sizeLimit) :
    checkedSize operation n = .ok n := if_pos h

theorem checkedSize_of_ge (operation : Operation) {n : Nat} (h : sizeLimit ≤ n) :
    checkedSize operation n = .error (.overflow operation) := if_neg (Nat.not_lt.mpr h)

theorem checkedOffset_of_fits (operation : Operation) {v : Int} (hl : -(offsetLimit : Int) ≤ v)
    (hg : v < offsetLimit) : checkedOffset operation v = .ok v := if_pos ⟨hl, hg⟩

theorem checkedOffset_eq_ok_iff {operation : Operation} {v w : Int} :
    checkedOffset operation v = .ok w ↔
      (-(offsetLimit : Int) ≤ v ∧ v < offsetLimit) ∧ v = w := by
  rw [checkedOffset]
  split <;> simp [*]

theorem offsetOfSize_of_lt {n : Nat} (h : n < offsetLimit) : offsetOfSize n = n := by
  simp only [offsetLimit] at h
  simp only [offsetOfSize, sizeLimit]
  rw [Int.bmod_eq_of_le] <;> omega

/-- An offset that is read as a size below the limit of the offsets is that size. -/
theorem natCast_sizeOfOffset {v : Int} (hl : -(offsetLimit : Int) ≤ v) (hg : v < offsetLimit)
    (h : sizeOfOffset v < offsetLimit) : (sizeOfOffset v : Int) = v := by
  simp only [sizeOfOffset, sizeLimit, offsetLimit] at *
  omega

theorem sizeOfOffset_natCast {n : Nat} (h : n < sizeLimit) : sizeOfOffset n = n := by
  simp only [sizeLimit] at h
  simp only [sizeOfOffset, sizeLimit]
  omega

end EchoDelay
