import EchoDelay.Proofs.Hamming
import EchoDelay.Proofs.Residual
import EchoDelay.Proofs.Stream

/-!
# The range of the means

In every reachable state the means lie within [127, 16257], and each candidate can be brought to
either end. The scan over the means therefore always finds a candidate, and the last delay
probability, which is anchored at a lowest mean or drifts upwards, never falls below 127.
-/
namespace EchoDelay

/-- A full far end brings a mean closer to its target until the gap is less than 128. -/
theorem smoothedMean_approaches (mean : Int) (distance : Nat) :
    (512 * distance - smoothedMean mean distance 32).natAbs ≤
      max 127 ((512 * distance - mean).natAbs - 1) := by
  have hstep : smoothedMean mean distance 32 = approach (512 * distance) 7 mean := rfl
  rw [hstep]
  rcases lt_or_ge |512 * distance - mean| (2 ^ 7) with hnear | hfar
  · rw [approach_of_near hnear]
    rw [Int.abs_eq_natAbs] at hnear
    omega
  · have hcloser := approach_closer hfar
    rw [Int.abs_eq_natAbs, Int.abs_eq_natAbs] at hcloser
    omega

theorem streamMean_inRange (frames : List Frame) (lookahead i n : Nat) :
    MeanInRange (streamMean frames lookahead i n) := by
  induction n with
  | zero => exact initial_inRange
  | succ n ih =>
    rw [streamMean_succ]
    exact smoothedMean_inRange (Spectrum.bitCount_le _) (Spectrum.bitCount_le _) ih

/-- The far end is full on every frame, and the near end stays the same. -/
def steady (near : Spectrum) (n : Nat) : List Frame := List.replicate n ⟨Spectrum.full, near⟩

section Steady

variable {near : Spectrum} {n k : Nat}

theorem steady_getElem? (hk : k < n) : (steady near n)[k]? = some ⟨Spectrum.full, near⟩ := by
  rw [steady, List.getElem?_replicate, if_pos hk]

theorem streamMean_steady_succ {lookahead i : Nat} (hi : i ≤ k) (hlookahead : lookahead ≤ k)
    (hk : k < n) : streamMean (steady near n) lookahead i (k + 1) =
      smoothedMean (streamMean (steady near n) lookahead i k) (Spectrum.full.distance near) 32 := by
  have hfar : farAt (steady near n) (k - i) = Spectrum.full := by
    rw [← Int.natCast_sub hi]
    exact farAt_of_getElem? (steady_getElem? (by omega))
  have hnear : nearAt (steady near n) (k - lookahead) = near := by
    rw [← Int.natCast_sub hlookahead]
    exact nearAt_of_getElem? (steady_getElem? (by omega))
  have hfull : Spectrum.full.bitCount = 32 := by decide
  rw [streamMean_succ, hfar, hnear, hfull]
  rfl

/-- Once a candidate meets the steady streams its mean closes up on their distance. -/
theorem streamMean_steady_gap (near : Spectrum) {lookahead i : Nat} (hk : i + lookahead + k ≤ n) :
    (512 * (Spectrum.full.distance near : Int) -
      streamMean (steady near n) lookahead i (i + lookahead + k)).natAbs ≤ max 127 (16257 - k) := by
  induction k with
  | zero =>
    obtain ⟨hl, hg⟩ := streamMean_inRange (steady near n) lookahead i (i + lookahead)
    have hdistance : Spectrum.full.distance near ≤ 32 := Spectrum.bitCount_le _
    rw [Nat.add_zero]
    omega
  | succ k ih =>
    have hgap := ih (by omega)
    rw [← Nat.add_assoc, streamMean_steady_succ (by omega) (by omega) (by omega)]
    have hstep := smoothedMean_approaches
      (streamMean (steady near n) lookahead i (i + lookahead + k)) (Spectrum.full.distance near)
    omega

/-- Equal spectra bring a candidate to the least mean, and opposite ones to the greatest. -/
theorem exists_streamMean_eq (lookahead i : Nat) {bound : Int}
    (hbound : bound = 127 ∨ bound = 16257) :
    ∃ frames : List Frame, streamMean frames lookahead i frames.length = bound := by
  obtain ⟨near, hnear⟩ : ∃ near, 512 * (Spectrum.full.distance near : Int) + 127 = bound ∨
      512 * (Spectrum.full.distance near : Int) - 127 = bound := by
    rcases hbound with rfl | rfl
    · exact ⟨Spectrum.full, .inl (by decide)⟩
    · exact ⟨0, .inr (by decide)⟩
  refine ⟨steady near (i + lookahead + 16130), ?_⟩
  have hlength : (steady near (i + lookahead + 16130)).length = i + lookahead + 16130 :=
    List.length_replicate
  have hgap := streamMean_steady_gap near (Nat.le_refl (i + lookahead + 16130))
  obtain ⟨hl, hg⟩ := streamMean_inRange (steady near (i + lookahead + 16130)) lookahead i
    (i + lookahead + 16130)
  rw [hlength]
  omega

end Steady

namespace Estimator

variable {d : Dimensions} {e : Estimator}

theorem Sound.spans (h : Sound d e) (ha : d.Accepted) :
    (Valley.ofMeans e.means).Spans e.rawMeans :=
  Valley.ofMeans_spans e.means (fun hnil => h.rawMeans_ne_nil ha (by rw [rawMeans, hnil]; rfl))
    fun mean hmean => h.means_inRange mean.raw (List.mem_map_of_mem hmean)

/-- Hearing the frame turns `e` into `heard`. The scan over the means of that finds a candidate, so
the branch without one is not taken, and the outcome is the decision on this candidate. -/
structure Scanned (e : Estimator) (frame : Frame) (heard : Estimator) (o : Outcome) : Prop
  extends Processed e frame o where
  listen_eq : e.listen frame = .ok heard
  assess_eq : heard.assess = .ok o
  process_eq : e.process frame = .ok o
  spans : (Valley.ofMeans heard.means).Spans heard.rawMeans
  decided_eq : ∃ candidate thresholds,
    (Valley.ofMeans heard.means).candidate = some candidate ∧
    heard.thresholds.lower (Valley.ofMeans heard.means) = .ok thresholds ∧
    o = if heard.Distinct
      then consider { heard with thresholds := thresholds.drift } candidate
        (Valley.ofMeans heard.means).best
      else keep { heard with thresholds := thresholds.drift }

theorem Sound.scanned (h : Sound d e) (ha : d.Accepted) (frame : Frame) :
    ∃ heard o, Scanned e frame heard o := by
  obtain ⟨heard, hlisten, -, -, -, hsound⟩ := h.listen_sound frame
  obtain ⟨o, hprocess, hprocessed, -⟩ := h.process_eq ha frame
  have hne := hsound.rawMeans_ne_nil ha
  have hassess : heard.assess = .ok o := by
    rw [← hprocess, process, hlisten]
    rfl
  obtain ⟨thresholds, hlower, -, -, hleader⟩ :=
    heard.assess_eq_leader hne hsound.means_inRange hsound.minimum_ge
  have hcandidate := (ofMeans_eq hne hsound.means_inRange).1
  have hdecided := Except.ok.inj (hassess.symm.trans hleader)
  exact ⟨heard, o, hprocessed, hlisten, hassess, hprocess, hsound.spans ha,
    ⟨heard.leader, thresholds, hcandidate, hlower, hdecided⟩⟩

theorem Decided.level_ge {o : Outcome} (h : Decided e o)
    (hlevel : 127 ≤ e.thresholds.lastDelayProbability.raw) (hlowest : 127 ≤ o.estimator.lowest) :
    127 ≤ o.estimator.thresholds.lastDelayProbability.raw := by
  rw [h.level_eq, Thresholds.drifted]
  split <;> omega

theorem Course.level_ge {commands : List Command} {outcomes : List Outcome}
    (h : Course d e commands outcomes) (ha : d.Accepted)
    (hinitial : e.thresholds = .initial) {k : Nat} (hk : k ≤ commands.length) :
    127 ≤ (e.stateAt outcomes k).thresholds.lastDelayProbability.raw := by
  refine h.invariant (P := fun e => 127 ≤ e.thresholds.lastDelayProbability.raw) ?_ ?_ ?_ hk
  · rw [hinitial]
    simp
  · intro e frame o _ hlevel hprocessed hsound
    have hlowest := (hsound.means_inRange _ (lowest_mem (hsound.rawMeans_ne_nil ha))).1
    exact hprocessed.toDecided.level_ge hlevel hlowest
  · intro e _ _
    change 127 ≤ Thresholds.initial.lastDelayProbability.raw
    simp

theorem Started.exists_mean_eq (he : Started d e) {i : Nat} (hi : i < d.candidates) {bound : Int}
    (hbound : bound = 127 ∨ bound = 16257) :
    ∃ (frames : List Frame) (outcomes : List Outcome), e.run (frames.map .frame) = .ok outcomes ∧
      (e.after outcomes).means[i]?.map Q9.raw = some bound := by
  obtain ⟨frames, hmean⟩ := exists_streamMean_eq d.lookahead i hbound
  obtain ⟨outcomes, hrun, hcourse⟩ := he.run_frames frames
  refine ⟨frames, outcomes, hrun, ?_⟩
  rw [← List.getElem?_map, ← hmean]
  exact (hcourse.follows_after he).rawMeans_getElem? hi

/-- The means of every reachable state stay within a range whose ends are reached. Within it the
scan after each frame finds their minimum, the first candidate that attains it and their maximum,
and the frame is decided on that candidate. -/
theorem run_means_inRange (he : (create d).value = .ok e) :
    (∀ commands : List Command, ∃ outcomes, e.run commands = .ok outcomes ∧
      outcomes.length = commands.length ∧
      (∀ mean ∈ (e.after outcomes).means, 127 ≤ mean.raw ∧ mean.raw ≤ 16257) ∧
      127 ≤ (e.after outcomes).thresholds.lastDelayProbability.raw ∧
      ∀ frame, ∃ heard o, Scanned (e.after outcomes) frame heard o) ∧
    ∀ i < d.maxDelay + d.lookahead, ∀ bound : Int, bound = 127 ∨ bound = 16257 →
      ∃ (frames : List Frame) (outcomes : List Outcome),
        e.run (frames.map .frame) = .ok outcomes ∧
        (e.after outcomes).means[i]?.map Q9.raw = some bound := by
  obtain ⟨ha, rfl⟩ := create_value_eq he
  constructor
  · intro commands
    obtain ⟨outcomes, hrun, hcourse⟩ := (sound_fresh ha).run_eq ha commands
    have hsound := hcourse.sound_after
    have hlevel := hcourse.level_ge ha rfl (Nat.le_refl commands.length)
    rw [← hcourse.length_eq, stateAt_length] at hlevel
    exact ⟨outcomes, hrun, hcourse.length_eq,
      fun mean hmean => hsound.means_inRange mean.raw (List.mem_map_of_mem hmean), hlevel,
      hsound.scanned ha⟩
  · intro i hi bound hbound
    exact (Started.created he).exists_mean_eq hi hbound

/-- With a lookahead, after a reset: the next frame makes both means equal, of which the first is
found, and the last candidate can be brought to the greatest mean. -/
theorem run_means_inRange_ahead :
    ∃ (e : Estimator) (outcomes outcomes' : List Outcome) (frames : List Frame),
      (create ⟨1, 1⟩).value = .ok e ∧
      e.run [.frame ⟨0xFFFFFFFF, 0⟩, .reset, .frame ⟨0xFFFFFFFF, 0⟩] = .ok outcomes ∧
      (∀ mean ∈ (e.after outcomes).means, 127 ≤ mean.raw ∧ mean.raw ≤ 16257) ∧
      (e.after outcomes).means.map Q9.raw = [10288, 10240] ∧
      (∃ heard o, Scanned (e.after outcomes) ⟨0, 0⟩ heard o ∧
        heard.means.map Q9.raw = [10288, 10288] ∧
        (Valley.ofMeans heard.means).candidate = some 0) ∧
      e.run (frames.map .frame) = .ok outcomes' ∧
      (e.after outcomes').means[1]?.map Q9.raw = some 16257 := by
  have he : (create ⟨1, 1⟩).value = .ok (fresh ⟨1, 1⟩ (by decide)) := by
    rw [create_fresh]
  obtain ⟨hrange, hreached⟩ := run_means_inRange he
  obtain ⟨outcomes, hrun, -, hmeans, -, hscanned⟩ :=
    hrange [.frame ⟨0xFFFFFFFF, 0⟩, .reset, .frame ⟨0xFFFFFFFF, 0⟩]
  obtain ⟨heard, o, hframe⟩ := hscanned ⟨0, 0⟩
  obtain ⟨frames, outcomes', hrun', hgreatest⟩ := hreached 1 (by decide) 16257 (.inr rfl)
  have hheard : heard.rawMeans = [10288, 10288] := by
    have hlisten :
        (((fresh ⟨1, 1⟩ (by decide)).after outcomes).listen ⟨0, 0⟩).toOption.map rawMeans =
          some [10288, 10288] := by
      rw [outcomes_eq hrun]
      decide +kernel
    rw [hframe.listen_eq] at hlisten
    exact Option.some.inj hlisten
  have hfirst : (Valley.ofMeans heard.means).candidate = some 0 := by
    have hbest := hframe.spans.best_eq
    have hcandidate := hframe.spans.candidate_eq
    rw [hheard] at hbest hcandidate
    rw [hcandidate, ← Option.some.inj hbest]
    rfl
  refine ⟨_, outcomes, outcomes', frames, he, hrun, hmeans, ?_,
    ⟨heard, o, hframe, hheard, hfirst⟩, hrun', hgreatest⟩
  rw [outcomes_eq hrun]
  decide +kernel

end Estimator
end EchoDelay
