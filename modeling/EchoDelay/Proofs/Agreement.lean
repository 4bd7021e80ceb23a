import EchoDelay.Proofs.Invariant

/-!
# Estimators that agree

Two estimators agree if they differ at most in their dimensions and in the near end they hold back.
A frame reads nothing else, apart from the near end that is due: where both are due the same, they
agree again afterwards, return the same delay and report the same events.
-/
namespace EchoDelay

theorem Thresholds.eq_of_raw {s t : Thresholds}
    (hminimum : s.minimumProbability.raw = t.minimumProbability.raw)
    (hlevel : s.lastDelayProbability.raw = t.lastDelayProbability.raw) : s = t := by
  cases s
  cases t
  rw [Thresholds.mk.injEq]
  exact ⟨Q9.ext hminimum, Q9.ext hlevel⟩

namespace Estimator

structure Agrees (a b : Estimator) : Prop where
  farHistory_eq : a.farHistory = b.farHistory
  farBitCounts_eq : a.farBitCounts = b.farBitCounts
  distances_eq : a.distances = b.distances
  means_eq : a.means = b.means
  thresholds_eq : a.thresholds = b.thresholds
  lastDelay_eq : a.lastDelay = b.lastDelay

variable {a b : Estimator} {o o' : Outcome} {frame frame' : Frame}

theorem means_eq_of_rawMeans (h : a.rawMeans = b.rawMeans) : a.means = b.means :=
  (List.map_inj_right Q9.raw_injective).mp h

/-- The thresholds and the delay before a frame and the means after it leave nothing open. -/
theorem Decided.unique (h : Decided a o) (h' : Decided b o')
    (hthresholds : a.thresholds = b.thresholds) (hlast : a.lastDelay = b.lastDelay)
    (hmeans : o.estimator.rawMeans = o'.estimator.rawMeans) :
    o.estimator.thresholds = o'.estimator.thresholds ∧
      o.estimator.lastDelay = o'.estimator.lastDelay ∧ o.delay = o'.delay ∧
      o.events = o'.events := by
  have hlowest := lowest_congr hmeans
  have hleader := leader_congr hmeans
  have hdistinct := distinct_congr hmeans
  have hafter : o.estimator.thresholds = o'.estimator.thresholds := by
    apply Thresholds.eq_of_raw
    · rw [h.minimum_eq, h'.minimum_eq, hthresholds, hlowest, highest_congr hmeans]
    · simp only [h.level_eq, h'.level_eq, hthresholds, hlowest, hdistinct]
  have hdelay : o.estimator.lastDelay = o'.estimator.lastDelay := by
    simp only [h.lastDelay_eq, h'.lastDelay_eq, hthresholds, hlast, hlowest, hleader, hdistinct,
      hafter]
  refine ⟨hafter, hdelay, ?_, ?_⟩
  · rw [h.delay_eq, h'.delay_eq, hdelay]
  · rw [h.events_eq, h'.events_eq, hdelay, hlast, hleader, hafter]

/-- What is heard of a frame depends on its far end and on the near end that is due. -/
theorem Agrees.processed (h : Agrees a b) (ha : Processed a frame o) (hb : Processed b frame' o')
    (hfar : frame.far = frame'.far) (hdue : a.due frame = b.due frame') :
    Agrees o.estimator o'.estimator ∧ o.delay = o'.delay ∧ o.events = o'.events := by
  have hhistory : o.estimator.farHistory = o'.estimator.farHistory := by
    rw [ha.farHistory_eq, hb.farHistory_eq, h.farHistory_eq, hfar]
  have hcounts : o.estimator.farBitCounts = o'.estimator.farBitCounts := by
    rw [ha.farBitCounts_eq, hb.farBitCounts_eq, h.farBitCounts_eq, hfar]
  have hdistances : o.estimator.distances = o'.estimator.distances := by
    rw [ha.distances_eq, hb.distances_eq, hhistory, hdue]
  have hmeans : o.estimator.rawMeans = o'.estimator.rawMeans := by
    rw [ha.rawMeans_eq, hb.rawMeans_eq, rawMeans, rawMeans, h.means_eq, hdistances, hcounts]
  obtain ⟨hthresholds, hlast, hdelay, hevents⟩ :=
    ha.toDecided.unique hb.toDecided h.thresholds_eq h.lastDelay_eq hmeans
  exact ⟨⟨hhistory, hcounts, hdistances, means_eq_of_rawMeans hmeans, hthresholds, hlast⟩, hdelay,
    hevents⟩

end Estimator
end EchoDelay
