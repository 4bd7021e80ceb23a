import EchoDelay.Proofs.Stream

/-!
# Recovery of a known delay

A candidate is separated if it stays within distance 2 of the near end while all others stay at
distance 20 or more. The others then never fall below 20.0, and every frame on which the candidate
is heard lowers its mean by at least one raw step until it is more than 2.0 below them.
-/
namespace EchoDelay.Estimator

/-- Candidate `c` matches the near end, and every other one is far from it. -/
structure Separated (c : Nat) (e : Estimator) : Prop where
  others : ∀ i far distance, i ≠ c → e.farHistory.slots[i]? = some far →
    e.distances[i]? = some distance → far = 0 ∨ 20 ≤ distance
  own : ∀ far distance, e.farHistory.slots[c]? = some far →
    e.distances[c]? = some distance → far = 0 ∨ distance ≤ 2

/-- There is a far end at candidate `c`. -/
def Hears (c : Nat) (e : Estimator) : Prop := ∃ far ∈ e.farHistory.slots[c]?, far ≠ 0

instance (c : Nat) (e : Estimator) : Decidable (e.Hears c) :=
  inferInstanceAs (Decidable (∃ far ∈ _, _))

/-- The number of frames on which candidate `c` was heard. -/
def heardCount (c : Nat) (outcomes : List Outcome) : Nat :=
  outcomes.countP fun o => o.estimator.Hears c

theorem heardCount_take_succ {c k : Nat} {outcomes : List Outcome} {o : Outcome}
    (ho : outcomes[k]? = some o) :
    heardCount c (outcomes.take (k + 1)) =
      heardCount c (outcomes.take k) + if o.estimator.Hears c then 1 else 0 := by
  rw [heardCount, List.take_add_one, ho, List.countP_append]
  simp [heardCount, List.countP_cons]

theorem heardCount_take_mono (c : Nat) (outcomes : List Outcome) {j k : Nat} (h : j ≤ k) :
    heardCount c (outcomes.take j) ≤ heardCount c (outcomes.take k) :=
  (List.take_sublist_take_left h).countP_le

theorem heardCount_eq_length {c : Nat} {outcomes : List Outcome}
    (h : ∀ o ∈ outcomes, o.estimator.Hears c) : heardCount c outcomes = outcomes.length :=
  List.countP_eq_length.mpr fun o ho => decide_eq_true (h o ho)

/-- The means after `n` frames on which candidate `c` was heard, all of them separated. -/
structure Recovering (c n : Nat) (e : Estimator) : Prop where
  others_ge : ∀ i v, i ≠ c → e.rawMeans[i]? = some v → 10240 ≤ v
  own : ∃ v, e.rawMeans[c]? = some v ∧ v + min n 1025 ≤ 10240 ∧
    v < e.thresholds.minimumProbability.raw

/-- Means from 20.0 - 1024 raw steps on are still 8192 raw steps above every target up to 2, so the
slowest step moves them. -/
theorem smoothedMean_sinks {mean : Int} {distance farBitCount n : Nat} (hd : distance ≤ 2)
    (hf : farBitCount ≤ 32) (hpos : farBitCount ≠ 0) (h : mean + min n 1025 ≤ 10240) :
    smoothedMean mean distance farBitCount + min (n + 1) 1025 ≤ 10240 := by
  have hbetween := smoothedMean_between mean distance farBitCount
  by_cases hhigh : 512 * (distance : Int) + 8192 ≤ mean
  · have := smoothedMean_lt hf hpos hhigh
    omega
  · omega

namespace Recovering

variable {c n : Nat} {e : Estimator}

theorem lowest_lt (h : Recovering c n e) : e.lowest < e.thresholds.minimumProbability.raw := by
  obtain ⟨v, hv, -, hlt⟩ := h.own
  have := lowest_le (List.mem_of_getElem? hv)
  omega

/-- From the first frame on which it is heard, candidate `c` leads. -/
theorem leader_eq (h : Recovering c n e) (hn : 1 ≤ n) : e.leader = c := by
  obtain ⟨v, hv, hle, -⟩ := h.own
  refine (Estimator.leader_eq hv fun i w hi hw => ?_).2
  have := h.others_ge i w hi hw
  omega

/-- From the 1025th such frame, its mean forms a valley with any other one. -/
theorem distinct (h : Recovering c n e) (hn : 1025 ≤ n) (htwo : 2 ≤ e.rawMeans.length) :
    e.Distinct := by
  obtain ⟨v, hv, hle, -⟩ := h.own
  have hlowest := lowest_le (List.mem_of_getElem? hv)
  have hother : ∃ i < e.rawMeans.length, i ≠ c := by
    by_cases hzero : c = 0
    · exact ⟨1, by omega, by omega⟩
    · exact ⟨0, by omega, by omega⟩
  obtain ⟨i, hi, hne⟩ := hother
  have hge := h.others_ge i _ hne (List.getElem?_eq_getElem hi)
  have hhighest := le_highest (List.getElem_mem hi)
  rw [Distinct]
  omega

end Recovering

/-- Below the minimum probability only a flat landscape is rejected. -/
theorem Decided.lastDelay_of_lt {e : Estimator} {o : Outcome} (h : Decided e o)
    (hlt : o.estimator.lowest < o.estimator.thresholds.minimumProbability.raw) :
    o.estimator.lastDelay =
      if o.estimator.Distinct then some o.estimator.leader else e.lastDelay := by
  rw [h.lastDelay_eq]
  exact if_congr (and_iff_left (.inl hlt)) rfl rfl

variable {d : Dimensions} {e : Estimator} {c n : Nat}

theorem recovering_fresh (ha : d.Accepted) (hc : c < d.candidates) :
    Recovering c 0 (fresh d ha) := by
  refine ⟨?_, 10240, ?_, by simp, ?_⟩
  · intro i v _ hv
    rw [rawMeans_fresh] at hv
    have := List.eq_of_mem_replicate (List.mem_of_getElem? hv)
    omega
  · rw [rawMeans_fresh, List.getElem?_replicate, if_pos hc]
  · change 10240 < Thresholds.initial.minimumProbability.raw
    simp

section Step

variable {frame : Frame} {o : Outcome}

/-- A target of 20 or more cannot pull another candidate below 20.0. -/
theorem Recovering.others_processed (h : Recovering c n e) (hs : Sound d e)
    (hp : Processed e frame o) (hafter : Sound d o.estimator)
    (hseparated : o.estimator.Separated c) {i : Nat} {v : Int} (hi : i ≠ c)
    (hv : o.estimator.rawMeans[i]? = some v) : 10240 ≤ v := by
  obtain ⟨before, far, distance, hbefore, hfar, hdistance, rfl⟩ :=
    hs.mean_step hp.toHeard hafter hv
  have hge := h.others_ge i before hi hbefore
  rcases hseparated.others i far distance hi hfar hdistance with rfl | hapart
  · rwa [bitCount_zero, smoothedMean_empty]
  · have := smoothedMean_between before distance far.bitCount
    omega

/-- A frame on which candidate `c` is heard brings its mean down, and any other one leaves it. -/
theorem Recovering.own_processed (h : Recovering c n e) (hs : Sound d e)
    (hp : Processed e frame o) (hafter : Sound d o.estimator)
    (hseparated : o.estimator.Separated c) :
    ∃ v, o.estimator.rawMeans[c]? = some v ∧
      v + min (n + if o.estimator.Hears c then 1 else 0) 1025 ≤ 10240 ∧
      v < e.thresholds.minimumProbability.raw := by
  obtain ⟨own, hown, hle, hlt⟩ := h.own
  have hmin := hs.minimum_ge
  have hc : c < d.candidates := by
    rw [← hs.rawMeans_length]
    exact (List.getElem?_eq_some_iff.mp hown).1
  obtain ⟨before, far, distance, hbefore, hfar, hdistance, hv⟩ := hs.mean_at hp.toHeard hafter hc
  obtain rfl := Option.some.inj (hbefore.symm.trans hown)
  refine ⟨_, hv, ?_⟩
  by_cases hempty : far = 0
  · have hsilent : ¬ o.estimator.Hears c := by
      rintro ⟨other, hother, hne⟩
      exact hne (Option.some.inj (hother.symm.trans (hfar.trans (congrArg some hempty))))
    rw [if_neg hsilent, hempty, bitCount_zero, smoothedMean_empty]
    exact ⟨hle, hlt⟩
  · have hnear := (hseparated.own far distance hfar hdistance).resolve_left hempty
    have hcount : far.bitCount ≠ 0 := fun hzero =>
      hempty ((Spectrum.bitCount_eq_zero_iff far).mp hzero)
    rw [if_pos ⟨far, hfar, hempty⟩]
    refine ⟨smoothedMean_sinks hnear far.bitCount_le hcount hle, ?_⟩
    have := smoothedMean_between before distance far.bitCount
    omega

/-- A separated frame preserves the invariant, and counts if candidate `c` is heard on it. -/
theorem Recovering.processed (h : Recovering c n e) (hs : Sound d e) (hp : Processed e frame o)
    (hafter : Sound d o.estimator) (hseparated : o.estimator.Separated c) :
    Recovering c (n + if o.estimator.Hears c then 1 else 0) o.estimator := by
  have hothers : ∀ i v, i ≠ c → o.estimator.rawMeans[i]? = some v → 10240 ≤ v :=
    fun i v hi hv => h.others_processed hs hp hafter hseparated hi hv
  obtain ⟨v, hv, hle, hlt⟩ := h.own_processed hs hp hafter hseparated
  refine ⟨hothers, v, hv, hle, ?_⟩
  have hlowest : o.estimator.lowest = v := by
    apply lowest_eq_of_le (List.mem_of_getElem? hv)
    intro w hw
    obtain ⟨i, hi⟩ := List.getElem?_of_mem hw
    by_cases hic : i = c
    · subst hic
      exact Int.le_of_eq (Option.some.inj (hv.symm.trans hi))
    · have := hothers i w hic hi
      omega
  rw [hp.minimum_eq, hlowest]
  exact Thresholds.lt_lowered hlt _

end Step

namespace Course

variable {frames : List Frame} {outcomes : List Outcome}

theorem heardCount_pos (h : Course d e (frames.map .frame) outcomes) {j k : Nat} (hpos : 1 ≤ j)
    (hjk : j ≤ k) (hk : k ≤ frames.length) (hhears : (e.stateAt outcomes j).Hears c) :
    1 ≤ heardCount c (outcomes.take k) := by
  have hmono := heardCount_take_mono c outcomes hjk
  cases j with
  | zero => omega
  | succ j =>
    obtain ⟨o, ho, -, hstate⟩ := h.processed_at (by omega : j < frames.length)
    rw [hstate] at hhears
    rw [heardCount_take_succ ho, if_pos hhears] at hmono
    omega

section Separated

variable (h : Course d e (frames.map .frame) outcomes) (he : Started d e) (hc : c < d.candidates)
  (hseparated : ∀ o ∈ outcomes, o.estimator.Separated c)
include h he hc hseparated

/-- Separated frames keep a course recovering, at the pace at which candidate `c` is heard. -/
theorem recovering {k : Nat} (hk : k ≤ frames.length) :
    Recovering c (heardCount c (outcomes.take k)) (e.stateAt outcomes k) := by
  induction k with
  | zero =>
    obtain ⟨ha, rfl⟩ := he.eq_fresh
    exact recovering_fresh ha hc
  | succ k ih =>
    obtain ⟨o, ho, hprocessed, hstate⟩ := h.processed_at hk
    have hafter := h.frame_sound hk
    rw [hstate] at hafter ⊢
    rw [heardCount_take_succ ho]
    exact (ih (by omega)).processed (h.frame_sound (by omega)) hprocessed hafter
      (hseparated o (List.mem_of_getElem? ho))

/-- The delay after a separated frame. -/
theorem lastDelay_separated {k : Nat} (hk : k < frames.length)
    (hheard : 1 ≤ heardCount c (outcomes.take (k + 1))) :
    (e.stateAt outcomes (k + 1)).lastDelay =
      if (e.stateAt outcomes (k + 1)).Distinct then some c
      else (e.stateAt outcomes k).lastDelay := by
  have hrecovering := h.recovering he hc hseparated hk
  obtain ⟨o, -, hprocessed, hstate⟩ := h.processed_at hk
  have hleader := hrecovering.leader_eq hheard
  have hlowest := hrecovering.lowest_lt
  rw [hstate] at hleader hlowest ⊢
  rw [hprocessed.toDecided.lastDelay_of_lt hlowest, hleader]

/-- Once candidate `c` is heard it leads. -/
theorem leader_separated {j k : Nat} (hpos : 1 ≤ j) (hjk : j ≤ k) (hk : k ≤ frames.length)
    (hhears : (e.stateAt outcomes j).Hears c) : (e.stateAt outcomes k).leader = c :=
  (h.recovering he hc hseparated hk).leader_eq (h.heardCount_pos hpos hjk hk hhears)

/-- From then on the delay moves nowhere else. -/
theorem lastDelay_moves {j k : Nat} (hpos : 1 ≤ j) (hjk : j ≤ k) (hk : k ≤ frames.length)
    (hhears : (e.stateAt outcomes j).Hears c) :
    (e.stateAt outcomes k).lastDelay = (e.stateAt outcomes (k - 1)).lastDelay ∨
      (e.stateAt outcomes k).lastDelay = some c :=
  h.lastDelay_of_leader (Nat.sub_le k 1) hk fun _ hlt hle =>
    h.leader_separated he hc hseparated hpos (by omega) (hle.trans hk) hhears

theorem lastDelay_stays {j k m : Nat} (hpos : 1 ≤ j) (hjk : j ≤ k) (hkm : k ≤ m)
    (hm : m ≤ frames.length)
    (hhears : (e.stateAt outcomes j).Hears c) (hlast : (e.stateAt outcomes k).lastDelay = some c) :
    (e.stateAt outcomes m).lastDelay = some c :=
  h.lastDelay_stays_of_leader hkm hm (fun _ hlt hle =>
    h.leader_separated he hc hseparated hpos (by omega) (hle.trans hm) hhears) hlast

/-- After 1025 frames with a far end at candidate `c` the landscape is never flat again. -/
theorem delay_separated {k : Nat} (hk : k < frames.length)
    (hheard : 1025 ≤ heardCount c (outcomes.take (k + 1))) :
    outcomes[k]?.map Outcome.delay = some (some c) := by
  obtain ⟨ha, -⟩ := he.eq_fresh
  obtain ⟨o, ho, hprocessed, hstate⟩ := h.processed_at hk
  have hdistinct := (h.recovering he hc hseparated hk).distinct hheard
    (by rw [(h.frame_sound hk).rawMeans_length]; exact ha.two_le)
  have hdelay := h.lastDelay_separated he hc hseparated hk (by omega)
  rw [if_pos hdistinct, hstate, ← hprocessed.delay_eq] at hdelay
  rw [ho, Option.map_some, hdelay]

end Separated
end Course

/-- Separation read off the streams. -/
theorem Follows.separated {frames : List Frame} {k : Nat} (h : Follows d frames k e)
    (hs : Sound d e)
    (hothers : ∀ i < d.candidates, i ≠ c → farAt frames (k - 1 - i) = 0 ∨
      20 ≤ (farAt frames (k - 1 - i) ^^^ nearAt frames (k - 1 - d.lookahead)).bitCount)
    (hown : farAt frames (k - 1 - c) = 0 ∨
      (farAt frames (k - 1 - c) ^^^ nearAt frames (k - 1 - d.lookahead)).bitCount ≤ 2) :
    e.Separated c := by
  have hread : ∀ i far distance, e.farHistory.slots[i]? = some far →
      e.distances[i]? = some distance → i < d.candidates ∧ far = farAt frames (k - 1 - i) ∧
        distance = (farAt frames (k - 1 - i) ^^^ nearAt frames (k - 1 - d.lookahead)).bitCount := by
    intro i far distance hfar hdistance
    obtain ⟨hi, -⟩ := List.getElem?_eq_some_iff.mp hdistance
    rw [hs.distances_length] at hi
    rw [h.farHistory_getElem? hi] at hfar
    rw [h.distances_getElem? hi] at hdistance
    exact ⟨hi, (Option.some.inj hfar).symm, (Option.some.inj hdistance).symm⟩
  constructor
  · intro i far distance hne hfar hdistance
    obtain ⟨hi, rfl, rfl⟩ := hread i far distance hfar hdistance
    exact hothers i hi hne
  · intro far distance hfar hdistance
    obtain ⟨-, rfl, rfl⟩ := hread c far distance hfar hdistance
    exact hown

/-- On separated frames the delay moves to candidate `c` alone as soon as this is heard, and it is
there from the 1025th frame on which it is heard. -/
theorem run_recovers (he : Started d e) (frames : List Frame)
    (hc : c < d.maxDelay + d.lookahead) :
    ∃ outcomes, e.run (frames.map .frame) = .ok outcomes ∧ outcomes.length = frames.length ∧
      ((∀ o ∈ outcomes, o.estimator.Separated c) →
        (∀ j k, 1 ≤ j → j ≤ k → k ≤ frames.length → (e.stateAt outcomes j).Hears c →
          (e.stateAt outcomes k).lastDelay = (e.stateAt outcomes (k - 1)).lastDelay ∨
            (e.stateAt outcomes k).lastDelay = some c) ∧
        (∀ j k m, 1 ≤ j → j ≤ k → k ≤ m → m ≤ frames.length → (e.stateAt outcomes j).Hears c →
          (e.stateAt outcomes k).lastDelay = some c →
            (e.stateAt outcomes m).lastDelay = some c) ∧
        ∀ k ≤ frames.length, 1025 ≤ heardCount c (outcomes.take k) →
          outcomes[k - 1]?.map Outcome.delay = some (some c)) := by
  obtain ⟨outcomes, hrun, hcourse⟩ := he.run_frames frames
  refine ⟨outcomes, hrun, hcourse.frames_length, fun hseparated => ⟨?_, ?_, ?_⟩⟩
  · intro j k hpos hjk hk hhears
    exact hcourse.lastDelay_moves he hc hseparated hpos hjk hk hhears
  · intro j k m hpos hjk hkm hm hhears hlast
    exact hcourse.lastDelay_stays he hc hseparated hpos hjk hkm hm hhears hlast
  · intro k hk hheard
    cases k with
    | zero => simp [heardCount] at hheard
    | succ k => exact hcourse.delay_separated he hc hseparated hk hheard

/-- Two spectra without a common bin in turn, each at both ends at once. -/
def burst (k : Nat) : Frame :=
  if k % 2 = 0 then ⟨0x0000FFFF, 0x0000FFFF⟩ else ⟨0xFFFF0000, 0xFFFF0000⟩

def bursts (n : Nat) : List Frame := (List.range n).map burst

theorem bursts_length (n : Nat) : (bursts n).length = n := by
  rw [bursts, List.length_map, List.length_range]

theorem bursts_getElem? {n k : Nat} (hk : k < n) : (bursts n)[k]? = some (burst k) := by
  rw [bursts, List.getElem?_map, List.getElem?_range hk, Option.map_some]

theorem burst_apart (k : Nat) : ((burst k).far ^^^ (burst (k + 1)).near).bitCount = 32 := by
  rcases Nat.mod_two_eq_zero_or_one k with h | h
  · rw [burst, burst, if_pos h, if_neg (by omega)]
    decide
  · rw [burst, burst, if_neg (by omega), if_pos (by omega)]
    decide

theorem burst_far (k : Nat) : (burst k).far ≠ 0 ∧ (burst k).far = (burst k).near := by
  rw [burst]
  split <;> decide

theorem bursts_far {n k : Nat} (hk : k < n) : farAt (bursts n) k = (burst k).far :=
  farAt_of_getElem? (bursts_getElem? hk)

theorem bursts_near {n k : Nat} (hk : k < n) : nearAt (bursts n) k = (burst k).near :=
  nearAt_of_getElem? (bursts_getElem? hk)

/-- The burst at candidate 0 matches the near end, and the one before it at candidate 1 does not. -/
theorem bursts_separated {n k : Nat} (hs : Sound ⟨2, 0⟩ e)
    (h : Follows ⟨2, 0⟩ (bursts n) (k + 1) e) (hk : k < n) : e.Separated 0 ∧ e.Hears 0 := by
  have hzero : ((k + 1 : Nat) : Int) - 1 - (0 : Nat) = k := by omega
  have hone : ((k + 1 : Nat) : Int) - 1 - (1 : Nat) = (k : Int) - 1 := by omega
  obtain ⟨hne, heq⟩ := burst_far k
  constructor
  · refine h.separated hs ?_ (.inr ?_)
    · intro i hi hne
      obtain rfl : i = 1 := by
        change i < 2 at hi
        omega
      rw [hzero, hone, bursts_near hk]
      cases k with
      | zero => exact .inl (farAt_of_neg (by omega))
      | succ k =>
        have hprevious : ((k + 1 : Nat) : Int) - 1 = k := by omega
        rw [hprevious, bursts_far (by omega), burst_apart]
        exact .inr (by decide)
    · rw [hzero, bursts_far hk, bursts_near hk, heq, UInt32.xor_self]
      decide
  · refine ⟨_, h.farHistory_getElem? (by decide : 0 < 2), ?_⟩
    rwa [hzero, bursts_far hk]

theorem Course.bursts {n : Nat} {outcomes : List Outcome}
    (h : Course ⟨2, 0⟩ e ((bursts n).map .frame) outcomes) (he : Started ⟨2, 0⟩ e) :
    ∀ o ∈ outcomes, o.estimator.Separated 0 ∧ o.estimator.Hears 0 := by
  intro o ho
  rw [← List.take_length (l := outcomes)] at ho
  obtain ⟨k, -, hlt, -, -, hstate⟩ := h.processed_of_mem_take ho
  rw [← hstate]
  exact bursts_separated (h.frame_sound hlt) (h.follows he hlt) (by simpa [bursts_length] using hlt)

/-- Bursts are separated, so from frame 1025 on the delay is that of candidate 0. -/
theorem run_recovers_bursts :
    ∃ e outcomes, Started ⟨2, 0⟩ e ∧ e.run ((bursts 2000).map .frame) = .ok outcomes ∧
      (∀ o ∈ outcomes, o.estimator.Separated 0) ∧
      ∀ k, 1025 ≤ k → k ≤ 2000 → outcomes[k - 1]?.map Outcome.delay = some (some 0) := by
  have he := started_fresh (d := ⟨2, 0⟩) (by decide)
  obtain ⟨outcomes, hrun, hlength, hrecovers⟩ := run_recovers he (bursts 2000) (by decide : 0 < 2)
  obtain ⟨outcomes', hrun', hcourse⟩ := he.run_frames (bursts 2000)
  obtain rfl := Except.ok.inj (hrun.symm.trans hrun')
  have hbursts := hcourse.bursts he
  have hseparated : ∀ o ∈ outcomes, o.estimator.Separated 0 := fun o ho => (hbursts o ho).1
  obtain ⟨-, -, hdelay⟩ := hrecovers hseparated
  refine ⟨_, outcomes, he, hrun, hseparated, fun k hl hk => ?_⟩
  rw [bursts_length] at hlength hdelay
  have hcount : heardCount 0 (outcomes.take k) = (outcomes.take k).length :=
    heardCount_eq_length fun o ho => (hbursts o (List.mem_of_mem_take ho)).2
  apply hdelay k hk
  rw [hcount, List.length_take]
  omega

end EchoDelay.Estimator
