import EchoDelay.Arithmetic.Fault

/-!
# Binary spectra

A binary spectrum is a word of 32 bits, one for each frequency bin. Two spectra are compared by the
number of bins in which they differ. A spectrum is compared with a list of others row by row, and
the counts may overwrite earlier ones in place. A frame is one spectrum of each end.
-/
namespace EchoDelay

abbrev Spectrum := UInt32

namespace Spectrum

def bins : Nat := 32

def isSet (spectrum : Spectrum) (bin : Nat) : Bool := spectrum.toNat.testBit bin

/-- The number of bins that are set. -/
def bitCount (spectrum : Spectrum) : Nat := (List.range bins).countP spectrum.isSet

theorem bitCount_le (spectrum : Spectrum) : bitCount spectrum ≤ bins := by
  simpa [bitCount] using List.countP_le_length (l := List.range bins) (p := isSet spectrum)

/-- The number of bins in which two spectra differ. -/
def distance (a b : Spectrum) : Nat := bitCount (a ^^^ b)

/-- The distance of every row from `spectrum`, in place of as many earlier counts. -/
def compareRows (spectrum : Spectrum) (rows : List Spectrum) (counts : List Nat) :
    Except Fault (List Nat) :=
  if rows.length = counts.length then .ok (rows.map spectrum.distance)
  else .error (.unequalLengths rows.length counts.length)

/-- Each count, as far as there are rows, is overwritten with the distance of its row. -/
def overwriteCounts (spectrum : Spectrum) : List Spectrum → List Nat → List Nat
  | [], counts => counts
  | _ :: _, [] => []
  | row :: rows, _ :: counts => spectrum.distance row :: overwriteCounts spectrum rows counts

/-- A comparison whose counts are kept in place. -/
def compareInPlace (spectrum : Spectrum) (rows : List Spectrum) :
    EStateM Fault (List Nat) Unit := do
  let counts ← get
  if rows.length ≠ counts.length then throw (.unequalLengths rows.length counts.length)
  set (overwriteCounts spectrum rows counts)

variable {spectrum : Spectrum} {rows : List Spectrum} {counts : List Nat}

theorem overwriteCounts_eq (h : rows.length = counts.length) :
    overwriteCounts spectrum rows counts = rows.map spectrum.distance := by
  induction rows generalizing counts with
  | nil => rw [overwriteCounts, List.map_nil, List.length_eq_zero_iff.mp h.symm]
  | cons row rows ih =>
    cases counts with
    | nil => cases h
    | cons count counts => rw [overwriteCounts, ih (Nat.succ.inj h), List.map_cons]

theorem compareInPlace_of_length_eq (h : rows.length = counts.length) :
    compareInPlace spectrum rows counts = .ok () (rows.map spectrum.distance) := by
  rw [← overwriteCounts_eq h, compareInPlace]
  change (if rows.length ≠ counts.length then _ else _ : EStateM Fault (List Nat) Unit) counts = _
  rw [if_neg (fun hne => hne h)]
  rfl

theorem compareInPlace_of_length_ne (h : rows.length ≠ counts.length) :
    compareInPlace spectrum rows counts =
      .error (.unequalLengths rows.length counts.length) counts := by
  rw [compareInPlace]
  change (if rows.length ≠ counts.length then _ else _ : EStateM Fault (List Nat) Unit) counts = _
  rw [if_pos h]
  rfl

end Spectrum

/-- What the loudspeaker plays, the far end, and what the microphone hears, the near end. -/
structure Frame where
  far : Spectrum
  near : Spectrum
  deriving DecidableEq, Repr

end EchoDelay
