import EchoDelay.Spectrum.Basic
import Mathlib.Algebra.BigOperators.Fin
import Mathlib.Data.Nat.Count
import Mathlib.InformationTheory.Hamming

/-!
# Distances of spectra

The distance of two spectra is the Hamming distance of their bins. From the empty spectrum it counts
the bins that are set and from the full one those that are not, so the triangle inequality bounds
the bit counts of two spectra by their distance, from either end.
-/
namespace EchoDelay.Spectrum

/-- The bins of a spectrum, by position. -/
def bin (spectrum : Spectrum) (i : Fin bins) : Bool := spectrum.isSet i

/-- The spectrum with all bins set. -/
def full : Spectrum := 0xFFFFFFFF

theorem isSet_xor (a b : Spectrum) (i : Nat) : (a ^^^ b).isSet i = (a.isSet i != b.isSet i) := by
  rw [isSet, UInt32.toNat_xor, Nat.testBit_xor]
  rfl

theorem bin_xor (a b : Spectrum) (i : Fin bins) : (a ^^^ b).bin i = (a.bin i != b.bin i) :=
  isSet_xor a b i

theorem bin_zero : ∀ i, bin 0 i = false := by decide

theorem bin_full : ∀ i, bin full i = true := by decide

/-- A spectrum has no more to it than its bins. -/
theorem eq_of_bin {a b : Spectrum} (h : ∀ i, a.bin i = b.bin i) : a = b := by
  have habove : ∀ (spectrum : Spectrum) (i : Nat), bins ≤ i → spectrum.toNat.testBit i = false := by
    intro spectrum i hi
    apply Nat.testBit_lt_two_pow
    calc spectrum.toNat < 2 ^ bins := spectrum.toNat_lt
      _ ≤ 2 ^ i := Nat.pow_le_pow_right (by decide) hi
  apply UInt32.toNat_inj.mp
  apply Nat.eq_of_testBit_eq
  intro i
  by_cases hi : i < bins
  · exact h ⟨i, hi⟩
  · rw [habove a i (by omega), habove b i (by omega)]

theorem bitCount_eq_card (spectrum : Spectrum) :
    spectrum.bitCount = (Finset.univ.filter fun i => spectrum.bin i).card := by
  have hcount : spectrum.bitCount = Nat.count (fun i => spectrum.isSet i) bins := by
    simp [bitCount, Nat.count]
  rw [hcount, Nat.count_eq_card_filter_range, Finset.card_filter, Finset.card_filter,
    Finset.sum_range]
  rfl

/-- Only the empty spectrum has no bin set. -/
theorem bitCount_eq_zero_iff (spectrum : Spectrum) : spectrum.bitCount = 0 ↔ spectrum = 0 := by
  rw [bitCount_eq_card, Finset.card_eq_zero, Finset.filter_eq_empty_iff]
  constructor
  · intro h
    apply eq_of_bin
    intro i
    rw [bin_zero, Bool.eq_false_iff]
    exact h (Finset.mem_univ i)
  · rintro rfl i -
    simp [bin_zero]

theorem distance_eq_hammingDist (a b : Spectrum) : distance a b = hammingDist a.bin b.bin := by
  rw [distance, bitCount_eq_card, hammingDist]
  congr 1
  ext i
  simp [bin_xor]

theorem distance_comm (a b : Spectrum) : distance a b = distance b a := by
  rw [distance, distance, UInt32.xor_comm]

theorem distance_triangle (a b c : Spectrum) : distance a c ≤ distance a b + distance b c := by
  simpa only [distance_eq_hammingDist] using hammingDist_triangle a.bin b.bin c.bin

theorem distance_zero (a : Spectrum) : distance a 0 = a.bitCount := by
  rw [distance, UInt32.xor_zero]

theorem distance_full (a : Spectrum) : distance a full + a.bitCount = bins := by
  have hclear : distance a full = (Finset.univ.filter fun i => ¬ a.bin i).card := by
    simp [distance, bitCount_eq_card, bin_xor, bin_full]
  rw [hclear, bitCount_eq_card, Nat.add_comm, Finset.card_filter_add_card_filter_not]
  rfl

/-- Bins in which two spectra differ account for the bins that one has more than the other. -/
theorem bitCount_le_add_distance (a b : Spectrum) : a.bitCount ≤ b.bitCount + distance a b := by
  have h := distance_triangle a b 0
  rw [distance_zero, distance_zero] at h
  omega

/-- Each bin is set in both, or differs, or is set in neither. -/
theorem bitCount_add_bitCount_le (a b : Spectrum) :
    a.bitCount + b.bitCount + distance a b ≤ 2 * bins := by
  have h := distance_triangle a full b
  have ha := distance_full a
  have hb := distance_full b
  rw [distance_comm full b] at h
  omega

/-- The bins of two spectra together make up for what `near` is closer to the first than to the
second. -/
theorem bitCount_add_bitCount_add_distance_le (near a b : Spectrum) :
    a.bitCount + b.bitCount + near.distance b ≤ 2 * bins + near.distance a := by
  have ha := bitCount_le_add_distance a near
  have hb := bitCount_add_bitCount_le near b
  rw [distance_comm a near] at ha
  omega

end EchoDelay.Spectrum
