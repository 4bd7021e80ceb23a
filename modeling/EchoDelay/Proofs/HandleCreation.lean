import EchoDelay.Handle.Basic
import EchoDelay.Proofs.Run

/-!
# Creation of a handle

A handle is asked for with signed numbers of 32 bits, and these are looked at once, before there is
an estimator. Numbers that pass are far too small for any size to overflow or for a buffer to be too
large, so the second look at the dimensions finds nothing, and only the first one is ever reported.
-/
namespace EchoDelay

theorem toNatClampNeg_lt (v : Int32) : v.toNatClampNeg < 2147483648 := by
  have h := v.toInt_lt
  rw [← v.toNat_toInt]
  omega

theorem toNatClampNeg_of_nonneg {v : Int32} (h : 0 ≤ v.toInt) :
    (v.toNatClampNeg : Int) = v.toInt := by
  rw [← v.toNat_toInt, Int.toNat_of_nonneg h]

theorem negative_iff {v : Int32} : v < 0 ↔ v.toInt < 0 := by
  rw [Int32.lt_iff_toInt_lt, Int32.toInt_zero]

namespace Dimensions

/-- The dimensions that two signed numbers stand for, unless one is negative. -/
def clamped (maxDelay lookahead : Int32) : Dimensions :=
  ⟨maxDelay.toNatClampNeg, lookahead.toNatClampNeg⟩

variable {maxDelay lookahead : Int32} {d : Dimensions}

theorem clamped_candidates_lt (maxDelay lookahead : Int32) :
    (clamped maxDelay lookahead).candidates < 4294967295 := by
  have hmax := toNatClampNeg_lt maxDelay
  have hlook := toNatClampNeg_lt lookahead
  change maxDelay.toNatClampNeg + lookahead.toNatClampNeg < _
  omega

theorem clamped_candidates (hmax : 0 ≤ maxDelay.toInt) (hlook : 0 ≤ lookahead.toInt) :
    ((clamped maxDelay lookahead).candidates : Int) = maxDelay.toInt + lookahead.toInt := by
  rw [candidates, Int.natCast_add]
  exact congrArg₂ _ (toNatClampNeg_of_nonneg hmax) (toNatClampNeg_of_nonneg hlook)

theorem accepted_clamped (htwo : 2 ≤ (clamped maxDelay lookahead).candidates) :
    (clamped maxDelay lookahead).Accepted := by
  have hfits := clamped_candidates_lt maxDelay lookahead
  have hlook : (clamped maxDelay lookahead).lookahead < 2147483648 := toNatClampNeg_lt lookahead
  exact ⟨htwo, by rw [offsetLimit]; omega, by rw [offsetLimit]; omega⟩

/-- What two signed numbers are turned into. The sign is looked at before the sum. -/
inductive Converted (maxDelay lookahead : Int32) : Except Failure Dimensions → Prop
  | negative (h : maxDelay.toInt < 0 ∨ lookahead.toInt < 0) :
      Converted maxDelay lookahead (.error (.refused .negativeDimension))
  | tooShort (hmax : 0 ≤ maxDelay.toInt) (hlook : 0 ≤ lookahead.toInt)
      (h : maxDelay.toInt + lookahead.toInt ≤ 1) :
      Converted maxDelay lookahead
        (.error (.refused (.historyTooShort (clamped maxDelay lookahead).candidates)))
  | accepted (hmax : 0 ≤ maxDelay.toInt) (hlook : 0 ≤ lookahead.toInt)
      (h : 1 < maxDelay.toInt + lookahead.toInt) :
      Converted maxDelay lookahead (.ok (clamped maxDelay lookahead))

theorem converted_ofSigned (maxDelay lookahead : Int32) :
    Converted maxDelay lookahead (ofSigned maxDelay lookahead) := by
  rw [ofSigned]
  by_cases hnegative : maxDelay < 0 ∨ lookahead < 0
  · rw [if_pos hnegative]
    rw [negative_iff, negative_iff] at hnegative
    exact .negative hnegative
  · rw [if_neg hnegative]
    rw [negative_iff, negative_iff] at hnegative
    have hmax : 0 ≤ maxDelay.toInt := by omega
    have hlook : 0 ≤ lookahead.toInt := by omega
    have hsum := clamped_candidates hmax hlook
    have hfits : (clamped maxDelay lookahead).candidates < sizeLimit := by
      have hlt := clamped_candidates_lt maxDelay lookahead
      rw [sizeLimit]
      omega
    change Converted maxDelay lookahead
      ((clamped maxDelay lookahead).validate >>= fun _ => .ok (clamped maxDelay lookahead))
    by_cases htwo : 2 ≤ (clamped maxDelay lookahead).candidates
    · rw [validate_of_two_le hfits htwo]
      exact .accepted hmax hlook (by omega)
    · rw [validate, historySize_of_lt hfits]
      change Converted maxDelay lookahead ((if _ ≤ 1 then _ else _) >>= _)
      rw [if_pos (by omega)]
      exact .tooShort hmax hlook (by omega)

theorem ofSigned_ne_faulted (maxDelay lookahead : Int32) (fault : Fault) :
    ofSigned maxDelay lookahead ≠ .error (.faulted fault) := by
  intro h
  have hconverted := converted_ofSigned maxDelay lookahead
  rw [h] at hconverted
  cases hconverted

theorem ofSigned_negative_iff :
    ofSigned maxDelay lookahead = .error (.refused .negativeDimension) ↔
      maxDelay.toInt < 0 ∨ lookahead.toInt < 0 := by
  have hconverted := converted_ofSigned maxDelay lookahead
  generalize ofSigned maxDelay lookahead = result at hconverted
  cases hconverted with
  | negative h => exact iff_of_true rfl h
  | tooShort hmax hlook h => exact iff_of_false (by simp) (by omega)
  | accepted hmax hlook h => exact iff_of_false (by simp) (by omega)

theorem ofSigned_tooShort_iff {n : Nat} :
    ofSigned maxDelay lookahead = .error (.refused (.historyTooShort n)) ↔
      0 ≤ maxDelay.toInt ∧ 0 ≤ lookahead.toInt ∧ maxDelay.toInt + lookahead.toInt = n ∧ n ≤ 1 := by
  have hconverted := converted_ofSigned maxDelay lookahead
  generalize ofSigned maxDelay lookahead = result at hconverted
  cases hconverted with
  | negative h => exact iff_of_false (by simp) (by omega)
  | tooShort hmax hlook h =>
    have hsum := clamped_candidates hmax hlook
    rw [Except.error.injEq, Failure.refused.injEq, DimensionError.historyTooShort.injEq]
    omega
  | accepted hmax hlook h => exact iff_of_false (by simp) (by omega)

theorem ofSigned_eq_ok (hmax : 0 ≤ maxDelay.toInt) (hlook : 0 ≤ lookahead.toInt)
    (h : 1 < maxDelay.toInt + lookahead.toInt) :
    ofSigned maxDelay lookahead = .ok (clamped maxDelay lookahead) := by
  have hconverted := converted_ofSigned maxDelay lookahead
  generalize ofSigned maxDelay lookahead = result at hconverted
  cases hconverted with
  | negative => omega
  | tooShort => omega
  | accepted => rfl

end Dimensions

namespace Handle

open Dimensions Estimator

variable {maxDelay lookahead : Int32}

/-- Signed numbers that are refused are reported here and nowhere else. -/
theorem create_of_refused {cause : DimensionError}
    (h : ofSigned maxDelay lookahead = .error (.refused cause)) :
    create maxDelay lookahead = ⟨none, [.handleRefused maxDelay lookahead cause]⟩ := by
  rw [create, h]

/-- Signed numbers that pass give an estimator, which nothing is left to refuse. -/
theorem create_of_accepted (hmax : 0 ≤ maxDelay.toInt) (hlook : 0 ≤ lookahead.toInt)
    (h : 1 < maxDelay.toInt + lookahead.toInt) :
    ∃ ha : (clamped maxDelay lookahead).Accepted,
      create maxDelay lookahead = ⟨some (fresh _ ha), []⟩ := by
  have hsum := clamped_candidates hmax hlook
  have ha : (clamped maxDelay lookahead).Accepted := accepted_clamped (by omega)
  refine ⟨ha, ?_⟩
  rw [create, ofSigned_eq_ok hmax hlook h]
  change (⟨(Estimator.create (clamped maxDelay lookahead)).value.toOption,
    (Estimator.create (clamped maxDelay lookahead)).events⟩ : Logged Handle) = _
  rw [create_fresh ha]
  rfl

theorem create_cases (maxDelay lookahead : Int32) :
    ((maxDelay.toInt < 0 ∨ lookahead.toInt < 0 ∨ maxDelay.toInt + lookahead.toInt ≤ 1) ∧
      ∃ cause, ofSigned maxDelay lookahead = .error (.refused cause) ∧
        create maxDelay lookahead = ⟨none, [.handleRefused maxDelay lookahead cause]⟩) ∨
    (0 ≤ maxDelay.toInt ∧ 0 ≤ lookahead.toInt ∧ 1 < maxDelay.toInt + lookahead.toInt) := by
  have hconverted := converted_ofSigned maxDelay lookahead
  generalize hsigned : ofSigned maxDelay lookahead = result at hconverted
  cases hconverted with
  | negative h => exact .inl ⟨by omega, _, rfl, create_of_refused hsigned⟩
  | tooShort hmax hlook h => exact .inl ⟨by omega, _, rfl, create_of_refused hsigned⟩
  | accepted hmax hlook h => exact .inr ⟨hmax, hlook, h⟩

/-- A handle that is not empty holds the fresh estimator of the dimensions asked for. -/
theorem create_eq_some {e : Estimator} (h : (create maxDelay lookahead).value = some e) :
    0 ≤ maxDelay.toInt ∧ 0 ≤ lookahead.toInt ∧
      ofSigned maxDelay lookahead = .ok (clamped maxDelay lookahead) ∧
      ∃ ha : (clamped maxDelay lookahead).Accepted, e = fresh _ ha := by
  rcases create_cases maxDelay lookahead with ⟨-, cause, -, hcreate⟩ | ⟨hmax, hlook, hsum⟩
  · rw [hcreate] at h
    cases h
  · obtain ⟨ha, hcreate⟩ := create_of_accepted hmax hlook hsum
    rw [hcreate] at h
    exact ⟨hmax, hlook, ofSigned_eq_ok hmax hlook hsum, ha, (Option.some.inj h).symm⟩

/-- Signed numbers are refused for a sign or for their sum, with one report that names them. All
others give an estimator that is as any estimator of these dimensions is after a reset. -/
theorem create_signed (maxDelay lookahead : Int32) :
    (∀ fault, ofSigned maxDelay lookahead ≠ .error (.faulted fault)) ∧
    (ofSigned maxDelay lookahead = .error (.refused .negativeDimension) ↔
      maxDelay.toInt < 0 ∨ lookahead.toInt < 0) ∧
    (∀ n : Nat, ofSigned maxDelay lookahead = .error (.refused (.historyTooShort n)) ↔
      0 ≤ maxDelay.toInt ∧ 0 ≤ lookahead.toInt ∧ maxDelay.toInt + lookahead.toInt = n ∧ n ≤ 1) ∧
    ((create maxDelay lookahead).value = none ↔
      maxDelay.toInt < 0 ∨ lookahead.toInt < 0 ∨ maxDelay.toInt + lookahead.toInt ≤ 1) ∧
    ((create maxDelay lookahead).value = none → ∃ cause event,
      ofSigned maxDelay lookahead = .error (.refused cause) ∧
      event = .handleRefused maxDelay lookahead cause ∧ event.level = .warn ∧
      (create maxDelay lookahead).events = [event]) ∧
    (0 ≤ maxDelay.toInt → 0 ≤ lookahead.toInt → 1 < maxDelay.toInt + lookahead.toInt →
      ∃ d e, ofSigned maxDelay lookahead = .ok d ∧
        (d.maxDelay : Int) = maxDelay.toInt ∧ (d.lookahead : Int) = lookahead.toInt ∧
        Estimator.create d = ⟨.ok e, []⟩ ∧ create maxDelay lookahead = ⟨some e, []⟩ ∧
        ∀ before, Reachable d before → (Handle.reset (some before)).handle = some e) := by
  refine ⟨ofSigned_ne_faulted _ _, ofSigned_negative_iff, fun n => ofSigned_tooShort_iff,
    ?_, ?_, ?_⟩
  · rcases create_cases maxDelay lookahead with ⟨h, cause, -, hcreate⟩ | ⟨hmax, hlook, h⟩
    · exact iff_of_true (by rw [hcreate]) h
    · obtain ⟨ha, hcreate⟩ := create_of_accepted hmax hlook h
      exact iff_of_false (by rw [hcreate]; simp) (by omega)
  · intro hnone
    rcases create_cases maxDelay lookahead with ⟨-, cause, hsigned, hcreate⟩ | ⟨hmax, hlook, h⟩
    · exact ⟨cause, _, hsigned, rfl, rfl, by rw [hcreate]⟩
    · obtain ⟨ha, hcreate⟩ := create_of_accepted hmax hlook h
      rw [hcreate] at hnone
      cases hnone
  · intro hmax hlook h
    obtain ⟨ha, hcreate⟩ := create_of_accepted hmax hlook h
    refine ⟨_, _, ofSigned_eq_ok hmax hlook h, toNatClampNeg_of_nonneg hmax,
      toNatClampNeg_of_nonneg hlook, create_fresh ha, hcreate, ?_⟩
    intro before hbefore
    exact congrArg some (hbefore.sound.reset_eq ha)

end Handle
end EchoDelay
