import EchoDelay.Estimator.Smoothing
import EchoDelay.Spectrum.Basic
import Mathlib.Tactic.IntervalCases

/-!
# The exact course of a running mean

A step of the smoother adds the gap to the target, divided by a power of two and truncated. On
distances of spectra it never faults, and it keeps a mean at least 127 raw steps away from either
end of the scale.
-/
namespace EchoDelay
namespace Q9

theorem add_eq_ok (a b : Q9) (hl : -2147483648 ≤ a.raw + b.raw) (hg : a.raw + b.raw ≤ 2147483647) :
    a.add b = .ok ⟨a.raw + b.raw, hl, hg⟩ := dif_pos ⟨hl, hg⟩

theorem sub_eq_ok (a b : Q9) (hl : -2147483648 ≤ a.raw - b.raw) (hg : a.raw - b.raw ≤ 2147483647) :
    a.sub b = .ok ⟨a.raw - b.raw, hl, hg⟩ := dif_pos ⟨hl, hg⟩

theorem neg_eq_ok (a : Q9) (hl : -2147483648 ≤ -a.raw) (hg : -a.raw ≤ 2147483647) :
    a.neg = .ok ⟨-a.raw, hl, hg⟩ := dif_pos ⟨hl, hg⟩

theorem shiftRight_raw (a : Q9) (places : Nat) (h : 0 ≤ a.raw) :
    (a.shiftRight places).raw = a.raw.tdiv (2 ^ places) := by
  change a.raw >>> places = _
  rw [Int.shiftRight_eq_div_pow, Int.tdiv_eq_ediv_of_nonneg h]
  norm_cast

/-- Only the least number has no magnitude. -/
theorem shiftTowardZero_eq (a : Q9) (places : Nat) (h : -2147483648 < a.raw) :
    ∃ r, a.shiftTowardZero places = .ok r ∧ r.raw = a.raw.tdiv (2 ^ places) := by
  rw [shiftTowardZero]
  split
  · have hg := a.raw_le_greatest
    rw [neg_eq_ok a (by omega) (by omega)]
    let magnitude : Q9 := ⟨-a.raw, by omega, by omega⟩
    have hraw : (magnitude.shiftRight places).raw = (-a.raw).tdiv (2 ^ places) :=
      shiftRight_raw magnitude places (by omega : 0 ≤ -a.raw)
    have hpos : 0 ≤ (magnitude.shiftRight places).raw := by
      rw [hraw]
      exact Int.tdiv_nonneg (by omega) (Int.pow_nonneg (by decide))
    have hle := (magnitude.shiftRight places).raw_le_greatest
    refine ⟨_, neg_eq_ok (magnitude.shiftRight places) (by omega) (by omega), ?_⟩
    change -(magnitude.shiftRight places).raw = _
    rw [hraw, Int.neg_tdiv, Int.neg_neg]
  · exact ⟨_, rfl, shiftRight_raw a places (by omega)⟩

end Q9

theorem tdiv_nonneg_le {gap scale : Int} (hs : 0 < scale) (hg : 0 ≤ gap) :
    0 ≤ gap.tdiv scale ∧ gap.tdiv scale ≤ gap :=
  ⟨Int.tdiv_nonneg hg (by omega), Int.tdiv_le_self scale hg⟩

theorem tdiv_nonpos_ge {gap scale : Int} (hs : 0 < scale) (hg : gap ≤ 0) :
    gap ≤ gap.tdiv scale ∧ gap.tdiv scale ≤ 0 := by
  have h := tdiv_nonneg_le hs (by omega : 0 ≤ -gap)
  rw [Int.neg_tdiv] at h
  omega

/-- A truncated part of the gap to a target does not lead past it. -/
theorem add_tdiv_between (mean target : Int) {scale : Int} (hs : 0 < scale) :
    min mean target ≤ mean + (target - mean).tdiv scale ∧
      mean + (target - mean).tdiv scale ≤ max mean target := by
  rcases Int.le_total mean target with h | h
  · have := tdiv_nonneg_le hs (by omega : 0 ≤ target - mean)
    omega
  · have := tdiv_nonpos_ge hs (by omega : target - mean ≤ 0)
    omega

/-- Rounding down does not spread two numbers. -/
theorem ediv_sub_ediv_le {a b scale : Int} (hs : 0 < scale) (h : b ≤ a) :
    a / scale - b / scale ≤ a - b := by
  have hgap : a - b ≤ (a - b) * scale := le_mul_of_one_le_right (by omega) (by omega)
  have hquotient : a / scale ≤ (b + (a - b) * scale) / scale := Int.ediv_le_ediv hs (by omega)
  rw [Int.add_mul_ediv_right _ _ (by omega)] at hquotient
  omega

/-- Nor does truncation, which shrinks the gap on either side of zero. -/
theorem tdiv_sub_tdiv_le {a b scale : Int} (hs : 0 < scale) (h : b ≤ a) :
    a.tdiv scale - b.tdiv scale ≤ a - b := by
  rcases Int.le_total 0 b with hb | hb
  · rw [Int.tdiv_eq_ediv_of_nonneg hb, Int.tdiv_eq_ediv_of_nonneg (by omega)]
    exact ediv_sub_ediv_le hs h
  · rcases Int.le_total 0 a with ha | ha
    · have hupper := (tdiv_nonneg_le hs ha).2
      have hlower := (tdiv_nonpos_ge hs hb).1
      omega
    · have hneg := ediv_sub_ediv_le hs (Int.neg_le_neg h)
      rw [← Int.tdiv_eq_ediv_of_nonneg (by omega), ← Int.tdiv_eq_ediv_of_nonneg (by omega),
        Int.neg_tdiv, Int.neg_tdiv] at hneg
      omega

namespace Q9

theorem smoothToward_eq (mean target : Q9) (shifts : Nat) (hs : shifts < 32)
    (hl : -2147483648 < target.raw - mean.raw) (hg : target.raw - mean.raw ≤ 2147483647) :
    ∃ r, mean.smoothToward target shifts = .ok r ∧
      r.raw = mean.raw + (target.raw - mean.raw).tdiv (2 ^ shifts) := by
  let gap : Q9 := ⟨target.raw - mean.raw, by omega, hg⟩
  obtain ⟨move, hmove, hraw⟩ := gap.shiftTowardZero_eq shifts hl
  have hscale : (0 : Int) < 2 ^ shifts := Int.pow_pos (by decide)
  have hm := mean.least_le_raw
  have hm' := mean.raw_le_greatest
  have ht := target.least_le_raw
  have ht' := target.raw_le_greatest
  -- the mean stays between where it was and the target
  have hbetween := add_tdiv_between mean.raw target.raw hscale
  rw [← show move.raw = (target.raw - mean.raw).tdiv (2 ^ shifts) from hraw] at hbetween
  have hleast : -2147483648 ≤ mean.raw + move.raw := by omega
  have hgreatest : mean.raw + move.raw ≤ 2147483647 := by omega
  refine ⟨⟨mean.raw + move.raw, hleast, hgreatest⟩, ?_, by rw [← hraw]⟩
  rw [smoothToward, if_neg (by omega), sub_eq_ok target mean (by omega) hg]
  change (gap.shiftTowardZero shifts >>= fun move => mean.add move) = _
  rw [hmove]
  exact add_eq_ok mean move hleast hgreatest

end Q9

/-- A mean after a frame, in raw steps: the gap to the distance over a power of two, truncated, is
added. An empty far end leaves the mean alone. -/
def smoothedMean (mean : Int) (distance farBitCount : Nat) : Int :=
  if farBitCount = 0 then mean
  else mean + (512 * distance - mean).tdiv (2 ^ (13 - 3 * farBitCount / 16))

/-- The raw values that a mean can take. -/
def MeanInRange (mean : Int) : Prop := 127 ≤ mean ∧ mean ≤ 16257

theorem initial_inRange : MeanInRange 10240 := ⟨by decide, by decide⟩

theorem smoothingShift_eq {farBitCount : Nat} (h : farBitCount ≤ 32) :
    smoothingShift farBitCount = .ok (13 - 3 * farBitCount / 16) := by
  have hword : checkedWord .multiply (3 * farBitCount) = .ok (3 * farBitCount) :=
    if_pos (by simp only [wordLimit]; omega)
  rw [smoothingShift, hword]
  change checkedDifference 13 ((3 * farBitCount) >>> 4) = _
  rw [Nat.shiftRight_eq_div_pow]
  exact if_pos (by omega)

theorem smoothingScale_bounds {farBitCount : Nat} (h : farBitCount ≤ 32) :
    (128 : Int) ≤ 2 ^ (13 - 3 * farBitCount / 16) ∧
      (2 : Int) ^ (13 - 3 * farBitCount / 16) ≤ 8192 := by
  have hshift : ∃ k ≤ 6, 13 - 3 * farBitCount / 16 = 7 + k := ⟨6 - 3 * farBitCount / 16, by omega⟩
  obtain ⟨k, hk, heq⟩ := hshift
  rw [heq]
  interval_cases k <;> decide

theorem mul_tdiv_le {gap scale factor : Int} (hf : factor ≤ scale) (hs : 0 < scale)
    (hg : 0 ≤ gap) : factor * gap.tdiv scale ≤ gap := by
  have hq := Int.tdiv_nonneg hg (Int.le_of_lt hs)
  have hr := Int.tmod_nonneg scale hg
  have he := Int.tdiv_mul_add_tmod gap scale
  have hm := Int.mul_le_mul_of_nonneg_right hf hq
  rw [Int.mul_comm scale] at hm
  omega

theorem mul_tdiv_le_max {gap scale factor : Int} (hf : 0 ≤ factor) (hfs : factor ≤ scale)
    (hs : 0 < scale) : factor * gap.tdiv scale ≤ max 0 gap := by
  rcases Int.le_total 0 gap with hgap | hgap
  · have hstep := mul_tdiv_le hfs hs hgap
    omega
  · have hstep := Int.mul_nonpos_of_nonneg_of_nonpos hf (tdiv_nonpos_ge hs hgap).2
    omega

section Course

variable {mean : Int} {distance farBitCount : Nat}

@[simp] theorem smoothedMean_empty (mean : Int) (distance : Nat) :
    smoothedMean mean distance 0 = mean := if_pos rfl

theorem smoothedMean_between (mean : Int) (distance farBitCount : Nat) :
    min mean (512 * distance) ≤ smoothedMean mean distance farBitCount ∧
      smoothedMean mean distance farBitCount ≤ max mean (512 * distance) := by
  rw [smoothedMean]
  split
  · omega
  · exact add_tdiv_between mean (512 * distance) (Int.pow_pos (by decide))

/-- A mean above its target falls and does not cross it. -/
theorem smoothedMean_falls (h : 512 * distance ≤ mean) :
    smoothedMean mean distance farBitCount ≤ mean ∧
      512 * distance ≤ smoothedMean mean distance farBitCount := by
  have := smoothedMean_between mean distance farBitCount
  omega

/-- A mean on the same side of a level as its target stays there. -/
theorem smoothedMean_lt_iff {level : Nat} (h : mean < 512 * level ↔ distance < level) :
    smoothedMean mean distance farBitCount < 512 * level ↔ mean < 512 * level := by
  have hbetween := smoothedMean_between mean distance farBitCount
  omega

/-- The last step before either end would need a gap of 128 raw steps and has 127 at most. -/
theorem smoothedMean_inRange (hd : distance ≤ 32) (hf : farBitCount ≤ 32)
    (hm : MeanInRange mean) : MeanInRange (smoothedMean mean distance farBitCount) := by
  obtain ⟨hl, hg⟩ := hm
  obtain ⟨hscale, -⟩ := smoothingScale_bounds hf
  have hpos : (0 : Int) < 2 ^ (13 - 3 * farBitCount / 16) := by omega
  rw [MeanInRange, smoothedMean]
  split
  · exact ⟨hl, hg⟩
  · rcases Int.le_total 0 (512 * (distance : Int) - mean) with hgap | hgap
    · have hstep := mul_tdiv_le hscale hpos hgap
      have hrise := tdiv_nonneg_le hpos hgap
      omega
    · have hstep := mul_tdiv_le hscale hpos (by omega : 0 ≤ -(512 * (distance : Int) - mean))
      have hfall := tdiv_nonpos_ge hpos hgap
      rw [Int.neg_tdiv] at hstep
      omega

/-- From 8192 raw steps above its target on, a mean falls on every frame with a far end. -/
theorem smoothedMean_lt (hf : farBitCount ≤ 32) (hpos : farBitCount ≠ 0)
    (h : 512 * distance + 8192 ≤ mean) : smoothedMean mean distance farBitCount < mean := by
  have hscale := smoothingScale_bounds hf
  have hquotient : 1 ≤ (mean - 512 * distance).tdiv (2 ^ (13 - 3 * farBitCount / 16)) := by
    rw [Int.tdiv_eq_ediv_of_nonneg (by omega), Int.le_ediv_iff_mul_le (by omega)]
    omega
  rw [← Int.neg_sub, Int.neg_tdiv] at hquotient
  rw [smoothedMean, if_neg hpos]
  omega

end Course

section Pairs

variable {mean mean' : Int} {distance distance' : Nat} (farBitCount : Nat)

/-- A lower mean pulled to a lower target stays the lower one. -/
theorem smoothedMean_mono (hm : mean ≤ mean') (hd : distance ≤ distance') :
    smoothedMean mean distance farBitCount ≤ smoothedMean mean' distance' farBitCount := by
  rw [smoothedMean, smoothedMean]
  split
  · exact hm
  · have hscale : (0 : Int) < 2 ^ (13 - 3 * farBitCount / 16) := Int.pow_pos (by decide)
    have htarget := Int.tdiv_le_tdiv hscale
      (by omega : 512 * (distance : Int) - mean ≤ 512 * distance' - mean)
    have hgap := tdiv_sub_tdiv_le hscale
      (by omega : 512 * (distance' : Int) - mean' ≤ 512 * distance' - mean)
    omega

/-- Two means with the same target come no further apart. -/
theorem smoothedMean_sub_le (hm : mean ≤ mean') (distance : Nat) :
    smoothedMean mean' distance farBitCount - smoothedMean mean distance farBitCount ≤
      mean' - mean := by
  rw [smoothedMean, smoothedMean]
  split
  · exact Int.le_refl _
  · have hscale : (0 : Int) < 2 ^ (13 - 3 * farBitCount / 16) := Int.pow_pos (by decide)
    have hpull := Int.tdiv_le_tdiv hscale
      (by omega : 512 * (distance : Int) - mean' ≤ 512 * distance - mean)
    omega

end Pairs

section Speed

variable {farBitCount : Nat} (mean : Int) (distance bound : Nat)

theorem smoothingScale_mono {bound : Nat} (h : farBitCount ≤ bound) :
    (2 : Int) ^ (13 - 3 * bound / 16) ≤ 2 ^ (13 - 3 * farBitCount / 16) :=
  pow_le_pow_right₀ (by decide) (by omega)

/-- With at most `bound` bins at the far end, a mean rises by at most its gap over this scale. -/
theorem smoothedMean_rise_le (h : farBitCount ≤ bound) :
    2 ^ (13 - 3 * bound / 16) * (smoothedMean mean distance farBitCount - mean) ≤
      max 0 (512 * distance - mean) := by
  rw [smoothedMean]
  split
  · simp
  · rw [add_sub_cancel_left]
    exact mul_tdiv_le_max (Int.pow_nonneg (by decide)) (smoothingScale_mono h)
      (Int.pow_pos (by decide))

theorem smoothedMean_fall_le (h : farBitCount ≤ bound) :
    2 ^ (13 - 3 * bound / 16) * (mean - smoothedMean mean distance farBitCount) ≤
      max 0 (mean - 512 * distance) := by
  rw [smoothedMean]
  split
  · simp
  · rw [sub_add_cancel_left, ← Int.neg_tdiv, Int.neg_sub]
    exact mul_tdiv_le_max (Int.pow_nonneg (by decide)) (smoothingScale_mono h)
      (Int.pow_pos (by decide))

end Speed

theorem ofInt_raw {distance : Nat} (h : distance ≤ 32) :
    (Q9.ofInt distance).raw = 512 * distance :=
  Q9.wrap_raw_of_fits (by omega) (by omega)

theorem smoothMean_eq {mean : Q9} {distance farBitCount : Nat} (hm : MeanInRange mean.raw)
    (hd : distance ≤ 32) (hf : farBitCount ≤ 32) :
    ∃ r, smoothMean mean distance farBitCount = .ok r ∧
      r.raw = smoothedMean mean.raw distance farBitCount := by
  obtain ⟨hl, hg⟩ := hm
  rw [smoothMean, smoothedMean]
  split
  · exact ⟨mean, rfl, rfl⟩
  · rw [smoothingShift_eq hf, ← ofInt_raw hd]
    have htarget := ofInt_raw hd
    exact mean.smoothToward_eq (.ofInt distance) _ (by omega) (by omega) (by omega)

/-- Every mean with its own distance and its own far-end count. -/
def smoothedMeans : List Int → List Nat → List Nat → List Int
  | mean :: means, distance :: distances, farBitCount :: farBitCounts =>
    smoothedMean mean distance farBitCount :: smoothedMeans means distances farBitCounts
  | means, _, _ => means

theorem smoothedMeans_length (means : List Int) (distances farBitCounts : List Nat) :
    (smoothedMeans means distances farBitCounts).length = means.length := by
  fun_induction smoothedMeans means distances farBitCounts with
  | case1 mean means distance distances farBitCount farBitCounts ih => simp [ih]
  | case2 => rfl

/-- Without any far end no mean moves. -/
theorem smoothedMeans_empty {means : List Int} {distances farBitCounts : List Nat}
    (h : ∀ n ∈ farBitCounts, n = 0) : smoothedMeans means distances farBitCounts = means := by
  fun_induction smoothedMeans means distances farBitCounts with
  | case1 mean means distance distances farBitCount farBitCounts ih =>
    rw [List.forall_mem_cons] at h
    rw [h.1, smoothedMean_empty, ih h.2]
  | case2 => rfl

theorem smoothedMeans_getElem? {means : List Int} {distances farBitCounts : List Nat} {i : Nat}
    {mean : Int} {distance farBitCount : Nat} (hm : means[i]? = some mean)
    (hd : distances[i]? = some distance) (hf : farBitCounts[i]? = some farBitCount) :
    (smoothedMeans means distances farBitCounts)[i]? =
      some (smoothedMean mean distance farBitCount) := by
  fun_induction smoothedMeans means distances farBitCounts generalizing i with
  | case1 first means d distances f farBitCounts ih =>
    cases i with
    | zero => simp_all
    | succ i => exact ih (by simpa using hm) (by simpa using hd) (by simpa using hf)
  | case2 means distances farBitCounts hnone =>
    -- one of the three lists is empty
    cases means with
    | nil => simp at hm
    | cons =>
      cases distances with
      | nil => simp at hd
      | cons =>
        cases farBitCounts with
        | nil => simp at hf
        | cons => exact (hnone _ _ _ _ _ _ rfl rfl rfl).elim

theorem smoothedMeans_inRange {means : List Int} {distances farBitCounts : List Nat}
    (hm : ∀ v ∈ means, MeanInRange v) (hd : ∀ n ∈ distances, n ≤ 32)
    (hf : ∀ n ∈ farBitCounts, n ≤ 32) :
    ∀ v ∈ smoothedMeans means distances farBitCounts, MeanInRange v := by
  fun_induction smoothedMeans means distances farBitCounts with
  | case1 mean means distance distances farBitCount farBitCounts ih =>
    rw [List.forall_mem_cons] at hm hd hf ⊢
    exact ⟨smoothedMean_inRange hd.1 hf.1 hm.1, ih hm.2 hd.2 hf.2⟩
  | case2 => exact hm

theorem smoothMeans_eq (means : List Q9) (distances farBitCounts : List Nat)
    (hm : ∀ mean ∈ means, MeanInRange mean.raw) (hd : ∀ n ∈ distances, n ≤ 32)
    (hf : ∀ n ∈ farBitCounts, n ≤ 32) :
    ∃ r, smoothMeans means distances farBitCounts = .ok r ∧
      r.map Q9.raw = smoothedMeans (means.map Q9.raw) distances farBitCounts := by
  induction means generalizing distances farBitCounts with
  | nil => exact ⟨[], by simp [smoothMeans], by simp [smoothedMeans]⟩
  | cons mean means ih =>
    cases distances with
    | nil => exact ⟨mean :: means, by simp [smoothMeans], by simp [smoothedMeans]⟩
    | cons distance distances =>
      cases farBitCounts with
      | nil => exact ⟨mean :: means, by simp [smoothMeans], by simp [smoothedMeans]⟩
      | cons farBitCount farBitCounts =>
        simp only [List.forall_mem_cons] at hm hd hf
        obtain ⟨first, hfirst, hraw⟩ := smoothMean_eq hm.1 hd.1 hf.1
        obtain ⟨rest, hrest, hraws⟩ := ih distances farBitCounts hm.2 hd.2 hf.2
        refine ⟨first :: rest, ?_, by simp [smoothedMeans, hraw, hraws]⟩
        rw [smoothMeans, hfirst, hrest]
        rfl

end EchoDelay
