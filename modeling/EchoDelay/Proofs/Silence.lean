import EchoDelay.Proofs.Acceptance
import EchoDelay.Proofs.Agreement

/-!
# A silent far end

Once the far-end history is empty, silent frames leave everything in place but the level, which
drifts upwards. The thresholds already are what the means make of them, so nothing happens in a flat
landscape, and in a valley nothing before the level has risen above the lowest mean. Then the leader
is accepted, if it was not before, and the delay never changes again.
-/
namespace EchoDelay

/-- Frames without any far end. -/
def silence (nears : List Spectrum) : List Frame := nears.map fun near => ⟨0, near⟩

theorem silence_length (nears : List Spectrum) : (silence nears).length = nears.length :=
  List.length_map _

theorem far_of_mem_silence {nears : List Spectrum} {frame : Frame} (h : frame ∈ silence nears) :
    frame.far = 0 := by
  obtain ⟨near, -, rfl⟩ := List.mem_map.mp h
  rfl

namespace Thresholds

/-- A second look at the same landscape lowers nothing. -/
theorem lowered_lowered (minimum lowest highest : Int) :
    lowered (lowered minimum lowest highest) lowest highest = lowered minimum lowest highest := by
  rw [lowered, lowered]
  split
  · rfl
  · omega

theorem drifted_of_lt {level : Int} (h : level < 2147483647) : drifted level = level + 1 := by
  rw [drifted]
  omega

end Thresholds

namespace Estimator

/-- The minimum probability, the level and the delay are what the present means make of them. -/
structure Settled (e : Estimator) : Prop where
  lowered_eq : Thresholds.lowered e.thresholds.minimumProbability.raw e.lowest e.highest =
    e.thresholds.minimumProbability.raw
  level_le : e.Distinct → e.thresholds.lastDelayProbability.raw ≤ e.lowest
  lastDelay_eq : e.Distinct → e.lowest < e.thresholds.minimumProbability.raw →
    e.lastDelay = some e.leader

/-- What a silent far end leaves in place. -/
structure Unmoved (e after : Estimator) : Prop where
  means_eq : after.means = e.means
  minimumProbability_eq : after.thresholds.minimumProbability = e.thresholds.minimumProbability
  farHistory_eq : after.farHistory = e.farHistory
  farBitCounts_eq : after.farBitCounts = e.farBitCounts

variable {d : Dimensions} {e after : Estimator} {o : Outcome} {frame : Frame}

/-- A new estimator has no valley. -/
theorem not_distinct_fresh (ha : d.Accepted) : ¬ (fresh d ha).Distinct := by
  have hne := (sound_fresh ha).rawMeans_ne_nil ha
  have hlowest := lowest_mem hne
  have hhighest := highest_mem hne
  rw [rawMeans_fresh] at hlowest hhighest
  rw [Distinct, List.eq_of_mem_replicate hlowest, List.eq_of_mem_replicate hhighest]
  decide

theorem settled_fresh (ha : d.Accepted) : Settled (fresh d ha) where
  lowered_eq := by
    have hflat := not_distinct_fresh ha
    rw [Distinct] at hflat
    rw [Thresholds.lowered, if_pos (by omega)]
  level_le hdistinct := absurd hdistinct (not_distinct_fresh ha)
  lastDelay_eq hdistinct _ := absurd hdistinct (not_distinct_fresh ha)

theorem Decided.settled (h : Decided e o) : Settled o.estimator where
  lowered_eq := by rw [h.minimum_eq, Thresholds.lowered_lowered]
  level_le := h.level_le
  lastDelay_eq hdistinct htrusted := by rw [h.lastDelay_eq, if_pos ⟨hdistinct, .inl htrusted⟩]

/-- Every state that is reached is settled. -/
theorem Reachable.settled (h : Reachable d e) : Settled e :=
  h.invariant settled_fresh fun _ _ hprocessed _ => hprocessed.toDecided.settled

namespace Unmoved

theorem refl (e : Estimator) : Unmoved e e := ⟨rfl, rfl, rfl, rfl⟩

theorem trans {later : Estimator} (h : Unmoved e after) (h' : Unmoved after later) :
    Unmoved e later :=
  ⟨h'.means_eq.trans h.means_eq, h'.minimumProbability_eq.trans h.minimumProbability_eq,
    h'.farHistory_eq.trans h.farHistory_eq, h'.farBitCounts_eq.trans h.farBitCounts_eq⟩

theorem rawMeans_eq (h : Unmoved e after) : after.rawMeans = e.rawMeans := by
  rw [rawMeans, rawMeans, h.means_eq]

end Unmoved

/-- A silent frame moves nothing where all was silent before. -/
theorem Processed.unmoved (h : Processed e frame o) (hfar : frame.far = 0) (hs : Sound d e)
    (hafter : Sound d o.estimator) (hsettled : Settled e)
    (hsilent : ∀ far ∈ e.farHistory.slots, far = 0) : Unmoved e o.estimator := by
  have hhistory : o.estimator.farHistory = e.farHistory := by
    rw [h.farHistory_eq, hfar, History.push_eq_self hsilent]
  have hcounts : o.estimator.farBitCounts = e.farBitCounts := by
    apply History.slots_injective
    rw [hafter.farBitCounts_eq, hs.farBitCounts_eq, hhistory]
  have hempty : ∀ n ∈ o.estimator.farBitCounts.slots, n = 0 := by
    rw [hafter.farBitCounts_eq, hhistory]
    intro n hn
    obtain ⟨far, hmem, rfl⟩ := List.mem_map.mp hn
    rw [hsilent far hmem, bitCount_zero]
  have hmeans : o.estimator.rawMeans = e.rawMeans := by
    rw [h.rawMeans_eq, smoothedMeans_empty hempty]
  refine ⟨means_eq_of_rawMeans hmeans, Q9.ext ?_, hhistory, hcounts⟩
  rw [h.minimum_eq, lowest_congr hmeans, highest_congr hmeans, hsettled.lowered_eq]

namespace Course

variable {nears : List Spectrum} {outcomes : List Outcome}

theorem settled {frames : List Frame} (h : Course d e (frames.map .frame) outcomes)
    (hsettled : Settled e) {k : Nat} (hk : k ≤ frames.length) :
    Settled (e.stateAt outcomes k) := by
  cases k with
  | zero => exact hsettled
  | succ k =>
    obtain ⟨o, -, hprocessed, hstate⟩ := h.processed_at hk
    rw [hstate]
    exact hprocessed.toDecided.settled

section Silent

variable (h : Course d e ((silence nears).map .frame) outcomes) (hsettled : Settled e)
  (hsilent : ∀ far ∈ e.farHistory.slots, far = 0)
include h hsettled hsilent

theorem unmoved {k : Nat} (hk : k ≤ nears.length) : Unmoved e (e.stateAt outcomes k) := by
  rw [← silence_length nears] at hk
  induction k with
  | zero => exact .refl e
  | succ k ih =>
    have hbefore := ih (by omega)
    obtain ⟨o, -, hprocessed, hstate⟩ := h.processed_at hk
    have hafter := h.frame_sound hk
    rw [hstate] at hafter ⊢
    refine hbefore.trans (hprocessed.unmoved (far_of_mem_silence (List.getElem_mem hk))
      (h.frame_sound (by omega)) hafter (h.settled hsettled (by omega)) ?_)
    rw [hbefore.farHistory_eq]
    exact hsilent

/-- One silent frame: the means decide as they did before, against a level that has drifted. -/
theorem decided_silent {k : Nat} (hk : k < nears.length) :
    (e.stateAt outcomes (k + 1)).thresholds.lastDelayProbability.raw =
      (if e.Distinct ∧ e.lowest <
          Thresholds.drifted (e.stateAt outcomes k).thresholds.lastDelayProbability.raw
        then e.lowest
        else Thresholds.drifted (e.stateAt outcomes k).thresholds.lastDelayProbability.raw) ∧
    (e.stateAt outcomes (k + 1)).lastDelay =
      if e.Distinct ∧ (e.lowest < e.thresholds.minimumProbability.raw ∨ e.lowest <
          Thresholds.drifted (e.stateAt outcomes k).thresholds.lastDelayProbability.raw)
        then some e.leader else (e.stateAt outcomes k).lastDelay := by
  have hunmoved := h.unmoved hsettled hsilent hk
  rw [← silence_length nears] at hk
  obtain ⟨o, -, hprocessed, hstate⟩ := h.processed_at hk
  rw [hstate] at hunmoved ⊢
  have hlevel := hprocessed.level_eq
  have hdelay := hprocessed.lastDelay_eq
  simp only [distinct_congr hunmoved.rawMeans_eq, lowest_congr hunmoved.rawMeans_eq,
    leader_congr hunmoved.rawMeans_eq, hunmoved.minimumProbability_eq] at hlevel hdelay
  exact ⟨hlevel, hdelay⟩

/-- In a flat landscape there is nothing to accept. -/
theorem lastDelay_flat (hflat : ¬ e.Distinct) {k : Nat} (hk : k ≤ nears.length) :
    (e.stateAt outcomes k).lastDelay = e.lastDelay := by
  induction k with
  | zero => rfl
  | succ k ih =>
    rw [(h.decided_silent hsettled hsilent hk).2, if_neg fun hboth => hflat hboth.1]
    exact ih (by omega)

section Valley

variable (hdistinct : e.Distinct)
include hdistinct

/-- The level rises by one raw step a frame and changes nothing while it is not above the valley. -/
theorem waiting (hlowest : e.lowest < 2147483647) {k : Nat} (hk : k ≤ nears.length)
    (hbelow : e.thresholds.lastDelayProbability.raw + k ≤ e.lowest) :
    (e.stateAt outcomes k).thresholds.lastDelayProbability.raw =
        e.thresholds.lastDelayProbability.raw + k ∧
      (e.stateAt outcomes k).lastDelay = e.lastDelay := by
  induction k with
  | zero => exact ⟨(add_zero _).symm, rfl⟩
  | succ k ih =>
    obtain ⟨hlevel, hdelay⟩ := ih (by omega) (by omega)
    obtain ⟨hlevel', hdelay'⟩ := h.decided_silent hsettled hsilent hk
    have hdrifted := Thresholds.drifted_of_lt
      (by omega : (e.stateAt outcomes k).thresholds.lastDelayProbability.raw < 2147483647)
    rw [hdrifted] at hlevel' hdelay'
    rw [if_neg (by omega)] at hlevel'
    refine ⟨by omega, ?_⟩
    by_cases htrusted : e.lowest < e.thresholds.minimumProbability.raw
    · rw [hdelay', if_pos ⟨hdistinct, .inl htrusted⟩, hsettled.lastDelay_eq hdistinct htrusted]
    · rw [hdelay', if_neg (by omega), hdelay]

/-- The leader is accepted on the first frame on which the level has risen above the valley. -/
theorem lastDelay_overtaken (hlowest : e.lowest < 2147483647) {k : Nat} (hk : k ≤ nears.length)
    (habove : e.lowest < e.thresholds.lastDelayProbability.raw + k) :
    (e.stateAt outcomes k).lastDelay = some e.leader := by
  have hlevel := hsettled.level_le hdistinct
  obtain ⟨n, hn⟩ := Int.eq_ofNat_of_zero_le (sub_nonneg.mpr hlevel)
  obtain ⟨hwaited, -⟩ := h.waiting hsettled hsilent hdistinct hlowest (by omega : n ≤ nears.length)
    (by omega)
  have hdrifted := Thresholds.drifted_of_lt
    (by omega : (e.stateAt outcomes n).thresholds.lastDelayProbability.raw < 2147483647)
  have haccepted : (e.stateAt outcomes (n + 1)).lastDelay = some e.leader := by
    rw [(h.decided_silent hsettled hsilent (by omega)).2, hdrifted,
      if_pos ⟨hdistinct, .inr (by omega)⟩]
  exact h.lastDelay_stays_of_leader (by omega : n + 1 ≤ k) (by rwa [silence_length])
    (fun i _ hi => leader_congr (h.unmoved hsettled hsilent (hi.trans hk)).rawMeans_eq) haccepted

end Valley
end Silent
end Course

/-- Silent frames after a silent far end: what stays in place, and when the delay changes. -/
theorem run_silence (h : Reachable d e) (hsilent : ∀ far ∈ e.farHistory.slots, far = 0)
    (nears : List Spectrum) :
    ∃ outcomes, e.run ((silence nears).map .frame) = .ok outcomes ∧
      outcomes.length = nears.length ∧
      (∀ k ≤ nears.length, Unmoved e (e.stateAt outcomes k)) ∧
      (e.highest ≤ e.lowest + 1024 →
        ∀ k ≤ nears.length, (e.stateAt outcomes k).lastDelay = e.lastDelay) ∧
      (e.lowest + 1024 < e.highest →
        e.thresholds.lastDelayProbability.raw ≤ e.lowest ∧
        ∀ k ≤ nears.length,
          ((k : Int) ≤ e.lowest - e.thresholds.lastDelayProbability.raw →
            (e.stateAt outcomes k).lastDelay = e.lastDelay) ∧
          (e.lowest - e.thresholds.lastDelayProbability.raw < k →
            (e.stateAt outcomes k).lastDelay = some e.leader)) ∧
      ∀ i j k, i ≤ j → j ≤ k → k ≤ nears.length →
        (e.stateAt outcomes i).lastDelay = (e.stateAt outcomes j).lastDelay ∨
          (e.stateAt outcomes j).lastDelay = (e.stateAt outcomes k).lastDelay := by
  obtain ⟨outcomes, hrun, hcourse⟩ := h.run_frames (silence nears)
  have hsettled := h.settled
  have hlowest : e.lowest < 2147483647 := by
    have hrange := (h.sound.means_inRange _ (lowest_mem (h.sound.rawMeans_ne_nil h.accepted))).2
    omega
  have hflat : e.highest ≤ e.lowest + 1024 →
      ∀ k ≤ nears.length, (e.stateAt outcomes k).lastDelay = e.lastDelay := fun hspread _ hk =>
    hcourse.lastDelay_flat hsettled hsilent (Int.not_lt.mpr hspread) hk
  have hvalley : e.lowest + 1024 < e.highest → ∀ k ≤ nears.length,
      ((k : Int) ≤ e.lowest - e.thresholds.lastDelayProbability.raw →
        (e.stateAt outcomes k).lastDelay = e.lastDelay) ∧
      (e.lowest - e.thresholds.lastDelayProbability.raw < k →
        (e.stateAt outcomes k).lastDelay = some e.leader) := fun hdistinct k hk =>
    ⟨fun hbelow =>
        (hcourse.waiting hsettled hsilent hdistinct hlowest hk (by omega)).2,
      fun habove =>
        hcourse.lastDelay_overtaken hsettled hsilent hdistinct hlowest hk (by omega)⟩
  refine ⟨outcomes, hrun, by rw [hcourse.frames_length, silence_length],
    fun k hk => hcourse.unmoved hsettled hsilent hk, hflat,
    fun hdistinct => ⟨hsettled.level_le hdistinct, hvalley hdistinct⟩, ?_⟩
  intro i j k hij hjk hk
  by_cases hdistinct : e.lowest + 1024 < e.highest
  · -- the change, if there is one, comes before frame `j` or after it
    by_cases hbelow : (j : Int) ≤ e.lowest - e.thresholds.lastDelayProbability.raw
    · left
      rw [(hvalley hdistinct i (by omega)).1 (by omega), (hvalley hdistinct j (by omega)).1 hbelow]
    · right
      rw [(hvalley hdistinct j (by omega)).2 (by omega), (hvalley hdistinct k hk).2 (by omega)]
  · left
    rw [hflat (by omega) i (by omega), hflat (by omega) j (by omega)]

/-- Candidate 0 makes a wide valley and then leaves it to candidate 1, which does not get as low. -/
def abandoned : List Command :=
  (List.replicate 25 [⟨0xFFFFFFFF, 0xFFFFFFFF⟩, ⟨0, 0⟩]).flatten.map .frame ++
    (List.replicate 41 [⟨0xFFFFFFFF, 0⟩, ⟨0, 0x007FFFFF⟩]).flatten.map .frame ++
    [.frame ⟨0, 0⟩]

/-- The level is 984 raw steps below the valley, so the delay changes on silent frame 985. -/
theorem run_silence_abandoned :
    ∃ e outcomes, Reachable ⟨2, 0⟩ e ∧ (∀ far ∈ e.farHistory.slots, far = 0) ∧
      e.means.map Q9.raw = [10598, 9495] ∧ e.lastDelay = some 0 ∧
      e.run ((silence (List.replicate 2000 0xFFFF)).map .frame) = .ok outcomes ∧
      (∀ k ≤ 984, (e.stateAt outcomes k).lastDelay = some 0) ∧
      ∀ k, 985 ≤ k → k ≤ 2000 →
        Unmoved e (e.stateAt outcomes k) ∧ (e.stateAt outcomes k).lastDelay = some 1 := by
  obtain ⟨past, hpast, h⟩ := Reachable.of_fresh (d := ⟨2, 0⟩) (by decide) abandoned
  have hslots : ((fresh ⟨2, 0⟩ (by decide)).after past).farHistory.slots = [0, 0] := by
    rw [outcomes_eq hpast]
    decide +kernel
  have hsilent : ∀ far ∈ ((fresh ⟨2, 0⟩ (by decide)).after past).farHistory.slots, far = 0 := by
    simp [hslots]
  have hstate : ((fresh ⟨2, 0⟩ (by decide)).after past).means.map Q9.raw = [10598, 9495] ∧
      ((fresh ⟨2, 0⟩ (by decide)).after past).lastDelay = some 0 ∧
      ((fresh ⟨2, 0⟩ (by decide)).after past).lowest = 9495 ∧
      ((fresh ⟨2, 0⟩ (by decide)).after past).highest = 10598 ∧
      ((fresh ⟨2, 0⟩ (by decide)).after past).leader = 1 ∧
      ((fresh ⟨2, 0⟩ (by decide)).after past).thresholds.lastDelayProbability.raw = 8511 := by
    rw [outcomes_eq hpast]
    decide +kernel
  obtain ⟨hmeans, hlast, hlowest, hhighest, hleader, hlevel⟩ := hstate
  obtain ⟨outcomes, hrun, -, hunmoved, -, hvalley, -⟩ :=
    run_silence h hsilent (List.replicate 2000 0xFFFF)
  rw [hlowest, hhighest, hleader, hlevel, hlast, List.length_replicate] at hvalley
  rw [List.length_replicate] at hunmoved
  obtain ⟨-, hdelay⟩ := hvalley (by decide)
  refine ⟨_, outcomes, h, hsilent, hmeans, hlast, hrun, ?_, ?_⟩
  · exact fun k hk => (hdelay k (by omega)).1 (by omega)
  · exact fun k hl hk => ⟨hunmoved k hk, (hdelay k hk).2 (by omega)⟩

end Estimator
end EchoDelay
