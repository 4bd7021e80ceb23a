import EchoDelay.Proofs.Hamming
import Mathlib.Algebra.Order.Group.Unbundled.Abs
import Mathlib.Data.Nat.ModEq

/-!
# The distances of rows from one spectrum

The counts that a comparison is given are overwritten one by one with the distances of the rows; if
there are not as many of them as rows, none is. The distances of two rows from the spectrum bound
their distance from each other on both sides. They also fix its parity, since a bin in which both
rows differ from the spectrum is counted twice and is one in which the rows agree.
-/
namespace EchoDelay.Spectrum

theorem distance_eq_zero_iff (a b : Spectrum) : distance a b = 0 ↔ a = b := by
  rw [distance, bitCount_eq_zero_iff, UInt32.xor_eq_zero_iff]

theorem distance_le_add (spectrum a b : Spectrum) :
    distance a b ≤ distance spectrum a + distance spectrum b := by
  rw [distance_comm spectrum a]
  exact distance_triangle a spectrum b

theorem abs_distance_sub_le (spectrum a b : Spectrum) :
    |(distance spectrum a : Int) - distance spectrum b| ≤ distance a b := by
  have ha := distance_triangle spectrum b a
  have hb := distance_triangle spectrum a b
  rw [distance_comm b a] at ha
  exact abs_le.mpr (by omega)

theorem countP_bne_add_two_mul (p q : Nat → Bool) (bins : List Nat) :
    bins.countP (fun bin => p bin != q bin) + 2 * bins.countP (fun bin => p bin && q bin) =
      bins.countP p + bins.countP q := by
  induction bins with
  | nil => rfl
  | cons bin bins ih =>
    simp only [List.countP_cons]
    cases p bin <;> cases q bin <;> simp <;> omega

/-- Bins that are set in both spectra count twice, and they are not among those that differ. -/
theorem distance_add_two_mul (a b : Spectrum) :
    distance a b + 2 * (a &&& b).bitCount = a.bitCount + b.bitCount := by
  have hxor : isSet (a ^^^ b) = fun bin => a.isSet bin != b.isSet bin := funext (isSet_xor a b)
  have hand : isSet (a &&& b) = fun bin => a.isSet bin && b.isSet bin := by
    funext bin
    rw [isSet, UInt32.toNat_and, Nat.testBit_and]
    rfl
  simp only [distance, bitCount, hxor, hand]
  exact countP_bne_add_two_mul a.isSet b.isSet _

/-- Both may be read relative to a third spectrum. -/
theorem distance_xor_xor (spectrum a b : Spectrum) :
    distance (spectrum ^^^ a) (spectrum ^^^ b) = distance a b := by
  rw [distance, distance, UInt32.xor_comm spectrum a, UInt32.xor_assoc, ← UInt32.xor_assoc spectrum,
    UInt32.xor_self, UInt32.zero_xor]

theorem distance_modEq (spectrum a b : Spectrum) :
    distance a b ≡ distance spectrum a + distance spectrum b [MOD 2] := by
  have hshared := distance_add_two_mul (spectrum ^^^ a) (spectrum ^^^ b)
  rw [distance_xor_xor] at hshared
  -- The bit counts of the two differences are the distances themselves.
  change _ = distance spectrum a + distance spectrum b at hshared
  rw [← hshared, Nat.ModEq, Nat.add_mul_mod_self_left]

/-- Of as many counts as rows, each becomes the Hamming distance of its row from the spectrum. The
counts of two rows differ by at most the distance of the rows and add up to at least it, and to the
same parity. Counts of another number are refused and stay as they are. -/
theorem compareRows_hamming (spectrum : Spectrum) (rows : List Spectrum) (counts : List Nat) :
    (rows.length ≠ counts.length →
      compareRows spectrum rows counts = .error (.unequalLengths rows.length counts.length) ∧
      compareInPlace spectrum rows counts =
        .error (.unequalLengths rows.length counts.length) counts) ∧
    (rows.length = counts.length → ∃ after, compareRows spectrum rows counts = .ok after ∧
      compareInPlace spectrum rows counts = .ok () after ∧ after.length = counts.length ∧
      (∀ (i : Nat) (row : Spectrum), rows[i]? = some row → ∃ count, after[i]? = some count ∧
        count = hammingDist spectrum.bin row.bin ∧ (count = 0 ↔ spectrum = row)) ∧
      ∀ (i j : Nat) (row row' : Spectrum) (count count' : Nat),
        rows[i]? = some row → rows[j]? = some row' →
        after[i]? = some count → after[j]? = some count' →
        |(count : Int) - count'| ≤ (row ^^^ row').bitCount ∧
        (row ^^^ row').bitCount ≤ count + count' ∧
        (row ^^^ row').bitCount ≡ count + count' [MOD 2]) := by
  refine ⟨fun h => ⟨if_neg h, compareInPlace_of_length_ne h⟩, fun h =>
    ⟨_, if_pos h, compareInPlace_of_length_eq h, by rw [List.length_map, h], ?_, ?_⟩⟩
  · intro i row hrow
    exact ⟨_, by rw [List.getElem?_map, hrow, Option.map_some],
      distance_eq_hammingDist spectrum row, distance_eq_zero_iff spectrum row⟩
  · intro i j row row' count count' hrow hrow' hcount hcount'
    rw [List.getElem?_map, hrow] at hcount
    rw [List.getElem?_map, hrow'] at hcount'
    obtain rfl := Option.some.inj hcount
    obtain rfl := Option.some.inj hcount'
    exact ⟨abs_distance_sub_le spectrum row row', distance_le_add spectrum row row',
      distance_modEq spectrum row row'⟩

/-- From a spectrum with two bins, over counts that held something else. One count too many is
refused. -/
theorem compareRows_hamming_twoBins :
    [0, 15, 10, full].length = [7, 7, 7, 7].length ∧
    [0, 15, 10].length ≠ [7, 7, 7, 7].length ∧
    (∃ after, compareInPlace 10 [0, 15, 10, full] [7, 7, 7, 7] = .ok () after ∧
      after[1]? = some 2 ∧ after[2]? = some 0 ∧ after[3]? = some 30 ∧
      (15 ^^^ full).bitCount ≤ 2 + 30 ∧ (15 ^^^ full).bitCount ≡ 2 + 30 [MOD 2]) ∧
    compareInPlace 10 [0, 15, 10] [7, 7, 7, 7] = .error (.unequalLengths 3 4) [7, 7, 7, 7] := by
  obtain ⟨after, hcompare, hplace, -, -, htriangle⟩ :=
    (compareRows_hamming 10 [0, 15, 10, full] [7, 7, 7, 7]).2 rfl
  obtain rfl : [2, 2, 0, 30] = after := Except.ok.inj hcompare
  obtain ⟨-, hsum, hparity⟩ := htriangle 1 3 15 full 2 30 rfl rfl rfl rfl
  obtain ⟨-, hrefused⟩ := (compareRows_hamming 10 [0, 15, 10] [7, 7, 7, 7]).1 (by decide)
  exact ⟨rfl, by decide, ⟨_, hplace, rfl, rfl, rfl, hsum, hparity⟩, hrefused⟩

end EchoDelay.Spectrum
