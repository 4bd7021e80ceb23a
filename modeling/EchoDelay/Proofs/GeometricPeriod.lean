import EchoDelay.Proofs.Hamming
import EchoDelay.Spectrum.Geometric
import Mathlib.RingTheory.ZMod.UnitsCyclic

/-!
# The period of the geometric spectra

The powers of three modulo two to the 32 are odd, so none of them is the empty spectrum, and they
return to one after two to the 30 steps and no earlier: up to sign, three is one plus an odd
multiple of four, whose order modulo a power of two is known. A run of geometric spectra is
therefore free of repetitions up to that length and not beyond it.
-/
namespace EchoDelay.Spectrum

/-- Squaring removes the sign in which three differs from one plus four times minus one. -/
theorem three_pow_two_pow_succ (modulus n : Nat) :
    (3 : ZMod modulus) ^ 2 ^ (n + 1) = (1 + 4 * ((-1 : Int) : ZMod modulus)) ^ 2 ^ (n + 1) := by
  have hsign : (1 + 4 * ((-1 : Int) : ZMod modulus)) = -3 := by
    push_cast
    ring
  rw [hsign, Even.neg_pow (by simp [Nat.even_pow])]

theorem orderOf_three (n : Nat) : orderOf (3 : ZMod (2 ^ (n + 4))) = 2 ^ (n + 2) := by
  have horder := ZMod.orderOf_one_add_four_mul (-1) (by decide) (n + 2)
  apply orderOf_eq_prime_pow
  · rw [three_pow_two_pow_succ]
    apply pow_ne_one_of_lt_orderOf (Nat.two_pow_pos _).ne'
    rw [horder]
    exact Nat.pow_lt_pow_right (by decide) (by omega)
  · rw [three_pow_two_pow_succ, ← horder]
    exact pow_orderOf_eq_one _

theorem three_pow_modEq_iff (n j k : Nat) :
    3 ^ j ≡ 3 ^ k [MOD 2 ^ (n + 4)] ↔ j ≡ k [MOD 2 ^ (n + 2)] := by
  have hfinite : IsOfFinOrder (3 : ZMod (2 ^ (n + 4))) := by
    rw [← orderOf_pos_iff, orderOf_three]
    exact Nat.two_pow_pos _
  rw [← ZMod.natCast_eq_natCast_iff]
  push_cast
  rw [hfinite.pow_eq_pow_iff_modEq, orderOf_three]

theorem geometricFrom_getElem? (first : Spectrum) {n k : Nat} (hk : k < n) :
    (geometricFrom first n)[k]? = some (first * .ofNat (3 ^ k)) := by
  induction n generalizing first k with
  | zero => omega
  | succ n ih =>
    cases k with
    | zero => simp [geometricFrom]
    | succ k =>
      rw [geometricFrom, List.getElem?_cons_succ, ih _ (by omega), pow_succ', UInt32.ofNat_mul,
        UInt32.mul_assoc]
      rfl

theorem geometric_getElem? {n k : Nat} (hk : k < n) :
    (geometric n)[k]? = some (.ofNat (3 ^ k)) := by
  rw [geometric, geometricFrom_getElem? 1 hk, UInt32.one_mul]

@[simp] theorem geometric_length (n : Nat) : (geometric n).length = n := geometricFrom_length 1 n

theorem geometric_getElem?_eq_iff {n j k : Nat} (hj : j < n) (hk : k < n) :
    (geometric n)[j]? = (geometric n)[k]? ↔ j ≡ k [MOD 2 ^ 30] := by
  rw [geometric_getElem? hj, geometric_getElem? hk, Option.some_inj,
    UInt32.ofNat_eq_iff_mod_eq_toNat, UInt32.toNat_ofNat']
  exact three_pow_modEq_iff 28 j k

/-- A spectrum that is an odd number has its first bin set. -/
theorem bitCount_pos_of_odd {spectrum : Spectrum} (h : Odd spectrum.toNat) :
    0 < spectrum.bitCount := by
  rw [Nat.pos_iff_ne_zero, Ne, bitCount_eq_zero_iff]
  rintro rfl
  exact absurd h (by decide)

theorem odd_toNat_ofNat_three_pow (k : Nat) : Odd (UInt32.ofNat (3 ^ k)).toNat := by
  rw [UInt32.toNat_ofNat', Nat.odd_iff, Nat.mod_mod_of_dvd _ (by decide), ← Nat.odd_iff]
  exact Odd.pow (by decide)

/-- Repetitions lie a whole period apart. -/
theorem geometric_nodup_iff (n : Nat) : (geometric n).Nodup ↔ n ≤ 2 ^ 30 := by
  rw [List.nodup_iff_getElem?_ne_getElem?, geometric_length]
  constructor
  · intro hdistinct
    by_contra! hlong
    refine hdistinct 0 (2 ^ 30) (by decide) hlong ?_
    rw [geometric_getElem?_eq_iff (by omega) hlong]
    decide
  · intro hshort j k hjk hk
    rw [Ne, geometric_getElem?_eq_iff (by omega) hk]
    intro hmod
    have := Nat.ModEq.eq_of_lt_of_lt hmod (by omega) (by omega)
    omega

/-- The geometric spectra are powers of three, odd and never empty, and their period is two to the
30. -/
theorem geometric_period (n : Nat) :
    (geometric n).length = n ∧
    (∀ k < n, ∃ spectrum, (geometric n)[k]? = some spectrum ∧ spectrum.toNat = 3 ^ k % 2 ^ 32 ∧
      Odd spectrum.toNat ∧ 0 < spectrum.bitCount) ∧
    (∀ j < n, ∀ k < n, (geometric n)[j]? = (geometric n)[k]? ↔ j ≡ k [MOD 2 ^ 30]) ∧
    ((geometric n).Nodup ↔ n ≤ 2 ^ 30) := by
  refine ⟨geometric_length n, fun k hk => ?_, fun j hj k hk => geometric_getElem?_eq_iff hj hk,
    geometric_nodup_iff n⟩
  have hodd := odd_toNat_ofNat_three_pow k
  exact ⟨_, geometric_getElem? hk, UInt32.toNat_ofNat' .., hodd, bitCount_pos_of_odd hodd⟩

example : geometric 5 = [1, 3, 9, 27, 81] := by decide

end EchoDelay.Spectrum
