import EchoDelay.Estimator.Process
import EchoDelay.Proofs.Landscape

/-!
# What an assessment does

With the means in their range an assessment never faults. It lowers the minimum probability behind a
wide valley, lets the last delay probability drift up by one raw step, and accepts the leader of a
distinct landscape if the lowest mean is below either of the two.
-/
namespace EchoDelay
namespace Thresholds

@[simp] theorem lowerLimit_raw : lowerLimit.raw = 8704 := by decide
@[simp] theorem initial_minimumProbability_raw : initial.minimumProbability.raw = 16384 := by decide
@[simp] theorem initial_lastDelayProbability_raw :
    initial.lastDelayProbability.raw = 16384 := by decide

/-- The raw minimum probability after a landscape with these extremes. -/
def lowered (minimum lowest highest : Int) : Int :=
  if highest - lowest ≤ 2816 then minimum else min minimum (max (lowest + 1024) 8704)

theorem lowered_ge {minimum lowest highest : Int} (h : 8704 ≤ minimum) :
    8704 ≤ lowered minimum lowest highest := by
  rw [lowered]
  split <;> omega

/-- A lowest mean that was below the minimum probability stays below it. -/
theorem lt_lowered {minimum lowest : Int} (h : lowest < minimum) (highest : Int) :
    lowest < lowered minimum lowest highest := by
  rw [lowered]
  split <;> omega

/-- One raw step up, as far as there is one. -/
def drifted (level : Int) : Int := min (level + 1) 2147483647

theorem drift_raw (t : Thresholds) :
    t.drift.lastDelayProbability.raw = drifted t.lastDelayProbability.raw := by
  have hl := t.lastDelayProbability.least_le_raw
  change max (-2147483648) (min (t.lastDelayProbability.raw + 1) 2147483647) = _
  rw [drifted]
  omega

/-- The guard on the lower limit changes nothing, as the bound is never below it. -/
theorem lower_eq (t : Thresholds) (v : Valley) (hbest : MeanInRange v.best.raw)
    (hworst : MeanInRange v.worst.raw) (ht : 8704 ≤ t.minimumProbability.raw) :
    ∃ r, t.lower v = .ok r ∧ r.lastDelayProbability = t.lastDelayProbability ∧
      r.minimumProbability.raw = lowered t.minimumProbability.raw v.best.raw v.worst.raw := by
  obtain ⟨hbl, hbg⟩ := hbest
  obtain ⟨hwl, hwg⟩ := hworst
  rw [lower, lowered]
  by_cases hfloor : t.minimumProbability ≤ lowerLimit
  · rw [if_pos hfloor]
    rw [Q9.le_iff, lowerLimit_raw] at hfloor
    refine ⟨t, rfl, rfl, ?_⟩
    split <;> omega
  · rw [if_neg hfloor, Q9.sub_eq_ok v.worst v.best (by omega) (by omega)]
    by_cases hspread : v.worst.raw - v.best.raw ≤ 2816
    · rw [if_pos hspread]
      exact ⟨t, if_pos hspread, rfl, rfl⟩
    · rw [if_neg hspread]
      have hsum := Q9.add_eq_ok v.best Valley.margin (by simp; omega) (by simp; omega)
      refine ⟨{ t with minimumProbability := min t.minimumProbability (max _ lowerLimit) },
        (if_neg hspread).trans (by rw [hsum]; rfl), rfl, ?_⟩
      simp

theorem trusts_iff (t : Thresholds) (mean : Q9) :
    t.trusts mean = true ↔ mean.raw < t.minimumProbability.raw := decide_eq_true_iff

theorem improvedBy_iff (t : Thresholds) (mean : Q9) :
    t.improvedBy mean = true ↔ mean.raw < t.lastDelayProbability.raw := decide_eq_true_iff

end Thresholds

theorem Valley.isDistinct_eq (v : Valley) (hbest : MeanInRange v.best.raw) :
    v.isDistinct = .ok (decide (v.best.raw + 1024 < v.worst.raw)) := by
  obtain ⟨hl, hg⟩ := hbest
  rw [isDistinct, Q9.add_eq_ok v.best margin (by simp; omega) (by simp; omega)]
  rfl

namespace Estimator

/-- How the means after a frame decide, given the thresholds and the delay of `e` before it. -/
structure Decided (e : Estimator) (o : Outcome) : Prop where
  minimum_eq : o.estimator.thresholds.minimumProbability.raw =
    Thresholds.lowered e.thresholds.minimumProbability.raw o.estimator.lowest o.estimator.highest
  level_eq : o.estimator.thresholds.lastDelayProbability.raw =
    if o.estimator.Distinct ∧
      o.estimator.lowest < Thresholds.drifted e.thresholds.lastDelayProbability.raw
    then o.estimator.lowest else Thresholds.drifted e.thresholds.lastDelayProbability.raw
  lastDelay_eq : o.estimator.lastDelay =
    if o.estimator.Distinct ∧
      (o.estimator.lowest < o.estimator.thresholds.minimumProbability.raw ∨
        o.estimator.lowest < Thresholds.drifted e.thresholds.lastDelayProbability.raw)
    then some o.estimator.leader else e.lastDelay
  delay_eq : o.delay = o.estimator.lastDelay
  events_eq : o.events =
    if o.estimator.lastDelay = e.lastDelay then []
    else [.delayChanged e.lastDelay o.estimator.leader o.estimator.thresholds.minimumProbability]

/-- A decision depends on the thresholds and the delay before it alone. -/
theorem Decided.congr {e e' : Estimator} {o : Outcome} (h : Decided e o)
    (hthresholds : e.thresholds = e'.thresholds) (hlast : e.lastDelay = e'.lastDelay) :
    Decided e' o := by
  obtain ⟨hminimum, hlevel, hdelay, hreturned, hevents⟩ := h
  rw [hthresholds] at hminimum hlevel hdelay
  rw [hlast] at hdelay hevents
  exact ⟨hminimum, hlevel, hdelay, hreturned, hevents⟩

theorem Decided.lastDelay_lt {e : Estimator} {o : Outcome} (h : Decided e o)
    (hne : o.estimator.rawMeans ≠ [])
    (hlt : ∀ c ∈ e.lastDelay, c < o.estimator.rawMeans.length) :
    ∀ c ∈ o.estimator.lastDelay, c < o.estimator.rawMeans.length := by
  intro c hc
  rw [h.lastDelay_eq] at hc
  split at hc
  · obtain rfl := Option.some.inj hc
    exact leader_lt hne
  · exact hlt c hc

/-- A delay only moves to the leader. -/
theorem Decided.lastDelay_of_ne {e : Estimator} {o : Outcome} (h : Decided e o)
    (hmoved : o.estimator.lastDelay ≠ e.lastDelay) :
    o.estimator.lastDelay = some o.estimator.leader := by
  have hdelay := h.lastDelay_eq
  split at hdelay
  · exact hdelay
  · exact (hmoved hdelay).elim

section Decision

variable {e : Estimator} {t : Thresholds}

/-- The leader is accepted, and `t` is what the thresholds have become. -/
theorem decided_report
    (haccepted : e.Distinct ∧ (e.lowest < t.minimumProbability.raw ∨
      e.lowest < Thresholds.drifted e.thresholds.lastDelayProbability.raw))
    (hmin : t.minimumProbability.raw =
      Thresholds.lowered e.thresholds.minimumProbability.raw e.lowest e.highest)
    (hlevel : t.lastDelayProbability.raw =
      if e.Distinct ∧ e.lowest < Thresholds.drifted e.thresholds.lastDelayProbability.raw
      then e.lowest else Thresholds.drifted e.thresholds.lastDelayProbability.raw) :
    e.Decided (report { e with thresholds := t } e.leader) where
  minimum_eq := hmin
  level_eq := hlevel
  lastDelay_eq := (if_pos haccepted).symm
  delay_eq := rfl
  events_eq := if_congr eq_comm rfl rfl

/-- The leader is rejected, and the level has only drifted. -/
theorem decided_keep
    (hrejected : ¬ (e.Distinct ∧ (e.lowest < t.minimumProbability.raw ∨
      e.lowest < Thresholds.drifted e.thresholds.lastDelayProbability.raw)))
    (hmin : t.minimumProbability.raw =
      Thresholds.lowered e.thresholds.minimumProbability.raw e.lowest e.highest)
    (hlevel : t.lastDelayProbability.raw =
      Thresholds.drifted e.thresholds.lastDelayProbability.raw) :
    e.Decided (keep { e with thresholds := t }) where
  minimum_eq := hmin
  level_eq := hlevel.trans (if_neg fun h => hrejected ⟨h.1, .inr h.2⟩).symm
  lastDelay_eq := (if_neg hrejected).symm
  delay_eq := rfl
  events_eq := (if_pos rfl).symm

/-- In a distinct landscape the leader is considered once `t` has drifted. -/
theorem decided_consider {best : Q9} (hdistinct : e.Distinct) (hbest : best.raw = e.lowest)
    (hmin : t.minimumProbability.raw =
      Thresholds.lowered e.thresholds.minimumProbability.raw e.lowest e.highest)
    (hlevel : t.lastDelayProbability = e.thresholds.lastDelayProbability) :
    e.Decided (consider { e with thresholds := t.drift } e.leader best) := by
  have htrusts : t.drift.trusts best = true ↔ e.lowest < t.minimumProbability.raw := by
    rw [Thresholds.trusts_iff, hbest]
    rfl
  have himproved : t.drift.improvedBy best = true ↔
      e.lowest < Thresholds.drifted e.thresholds.lastDelayProbability.raw := by
    rw [Thresholds.improvedBy_iff, hbest, t.drift_raw, hlevel]
  have hdrift := t.drift_raw
  rw [hlevel] at hdrift
  by_cases hi : t.drift.improvedBy best
  · rw [consider, if_pos (.inr hi)]
    simp only [Thresholds.anchor, if_pos hi]
    rw [himproved] at hi
    exact decided_report ⟨hdistinct, .inr hi⟩ hmin (by rw [if_pos ⟨hdistinct, hi⟩, ← hbest])
  · have hlevel' : ¬ (e.Distinct ∧
        e.lowest < Thresholds.drifted e.thresholds.lastDelayProbability.raw) :=
      fun h => hi (himproved.mpr h.2)
    by_cases ht : t.drift.trusts best
    · rw [consider, if_pos (.inl ht)]
      simp only [Thresholds.anchor, if_neg hi]
      exact decided_report ⟨hdistinct, .inl (htrusts.mp ht)⟩ hmin (by rw [if_neg hlevel', hdrift])
    · rw [consider, if_neg (by rintro (h | h); exacts [ht h, hi h])]
      refine decided_keep ?_ hmin hdrift
      rintro ⟨-, h | h⟩
      · exact ht (htrusts.mpr h)
      · exact hi (himproved.mpr h)

end Decision

/-- Only the thresholds and the delay change. -/
theorem consider_estimator (e : Estimator) (candidate : Nat) (mean : Q9) :
    (e.consider candidate mean).estimator =
      { e with
        thresholds := (e.consider candidate mean).estimator.thresholds
        lastDelay := (e.consider candidate mean).estimator.lastDelay } := by
  rw [consider]
  split <;> rfl

/-- The scan always finds a candidate, so the branch without one is not taken: an assessment moves
the thresholds and considers the leader if the landscape is distinct. -/
theorem assess_eq_leader (e : Estimator) (hne : e.rawMeans ≠ [])
    (hmeans : ∀ v ∈ e.rawMeans, MeanInRange v) (hmin : 8704 ≤ e.thresholds.minimumProbability.raw) :
    ∃ t, e.thresholds.lower (Valley.ofMeans e.means) = .ok t ∧
      t.lastDelayProbability = e.thresholds.lastDelayProbability ∧
      t.minimumProbability.raw =
        Thresholds.lowered e.thresholds.minimumProbability.raw e.lowest e.highest ∧
      e.assess = .ok (if e.Distinct
        then consider { e with thresholds := t.drift } e.leader (Valley.ofMeans e.means).best
        else keep { e with thresholds := t.drift }) := by
  obtain ⟨hcandidate, hbest, hworst⟩ := ofMeans_eq hne hmeans
  have hbestRange : MeanInRange (Valley.ofMeans e.means).best.raw :=
    hbest ▸ hmeans _ (lowest_mem hne)
  have hworstRange : MeanInRange (Valley.ofMeans e.means).worst.raw :=
    hworst ▸ hmeans _ (highest_mem hne)
  obtain ⟨t, ht, hlevel, hlowered⟩ := e.thresholds.lower_eq _ hbestRange hworstRange hmin
  rw [hbest, hworst] at hlowered
  have hisDistinct : (Valley.ofMeans e.means).isDistinct = .ok (decide e.Distinct) := by
    rw [Valley.isDistinct_eq _ hbestRange]
    simp only [hbest, hworst]
    rfl
  refine ⟨t, ht, hlevel, hlowered, ?_⟩
  simp only [assess, ht, hcandidate, hisDistinct, bind, Except.bind]
  split <;> simp_all [pure, Except.pure]

theorem assess_eq (e : Estimator) (hne : e.rawMeans ≠ [])
    (hmeans : ∀ v ∈ e.rawMeans, MeanInRange v) (hmin : 8704 ≤ e.thresholds.minimumProbability.raw) :
    ∃ o, e.assess = .ok o ∧ e.Decided o ∧ o.estimator =
      { e with thresholds := o.estimator.thresholds, lastDelay := o.estimator.lastDelay } := by
  obtain ⟨-, hbest, -⟩ := ofMeans_eq hne hmeans
  obtain ⟨t, -, hlevel, hlowered, hassess⟩ := e.assess_eq_leader hne hmeans hmin
  refine ⟨_, hassess, ?_⟩
  by_cases hdistinct : e.Distinct
  · rw [if_pos hdistinct]
    exact ⟨decided_consider hdistinct hbest hlowered hlevel, consider_estimator _ _ _⟩
  · rw [if_neg hdistinct]
    exact ⟨decided_keep (fun h => hdistinct h.1) hlowered (by rw [t.drift_raw, hlevel]), rfl⟩

end Estimator
end EchoDelay
