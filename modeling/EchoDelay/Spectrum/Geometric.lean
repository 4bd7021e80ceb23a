import EchoDelay.Spectrum.Basic

/-!
# Geometric spectra

The powers of three modulo two to the 32: a stream of spectra that are never empty and do not
repeat for a long time.
-/
namespace EchoDelay.Spectrum

/-- A run of `n` spectra, each three times the one before it. -/
def geometricFrom (first : Spectrum) : Nat → List Spectrum
  | 0 => []
  | n + 1 => first :: geometricFrom (first * 3) n

def geometric (n : Nat) : List Spectrum := geometricFrom 1 n

@[simp] theorem geometricFrom_length (first : Spectrum) (n : Nat) :
    (geometricFrom first n).length = n := by
  induction n generalizing first with
  | zero => rfl
  | succ n ih => simp [geometricFrom, ih]

end EchoDelay.Spectrum
