import EchoDelay.Proofs.Assessment
import EchoDelay.Estimator.Run

/-!
# The invariant of an estimator

Buffers of fixed sizes, counts that follow the far-end history, means within their range, and a
delay among the candidates: this holds of a new estimator and is kept by every command. It also
rules out each fault of a frame.
-/
namespace EchoDelay
namespace Dimensions

/-- The number of candidate delays. -/
def candidates (d : Dimensions) : Nat := d.maxDelay + d.lookahead

/-- At least two candidates, and buffers that can be addressed. -/
structure Accepted (d : Dimensions) : Prop where
  two_le : 2 ≤ d.candidates
  far_fits : 4 * d.candidates < offsetLimit
  near_fits : 4 * (d.lookahead + 1) < offsetLimit

instance (d : Dimensions) : Decidable d.Accepted :=
  decidable_of_iff (2 ≤ d.candidates ∧ 4 * d.candidates < offsetLimit ∧
    4 * (d.lookahead + 1) < offsetLimit)
    ⟨fun ⟨htwo, hfar, hnear⟩ => ⟨htwo, hfar, hnear⟩, fun ⟨htwo, hfar, hnear⟩ => ⟨htwo, hfar, hnear⟩⟩

variable {d : Dimensions}

theorem historySize_of_lt (h : d.candidates < sizeLimit) : d.historySize = .ok d.candidates :=
  checkedSize_of_lt .add h

theorem nearHistorySize_of_lt (h : d.lookahead + 1 < sizeLimit) :
    d.nearHistorySize = .ok (d.lookahead + 1) :=
  checkedSize_of_lt .add h

theorem validate_of_two_le (hfits : d.candidates < sizeLimit) (htwo : 2 ≤ d.candidates) :
    d.validate = .ok () := by
  rw [validate, historySize_of_lt hfits]
  exact if_neg (by omega)

theorem Accepted.candidates_lt (h : d.Accepted) : d.candidates < sizeLimit := by
  have hfits := h.far_fits
  rw [offsetLimit] at hfits
  rw [sizeLimit]
  omega

theorem Accepted.nearHistory_lt (h : d.Accepted) : d.lookahead + 1 < sizeLimit := by
  have hfits := h.near_fits
  rw [offsetLimit] at hfits
  rw [sizeLimit]
  omega

theorem Accepted.historySize_eq (h : d.Accepted) : d.historySize = .ok d.candidates :=
  historySize_of_lt h.candidates_lt

theorem Accepted.nearHistorySize_eq (h : d.Accepted) :
    d.nearHistorySize = .ok (d.lookahead + 1) :=
  nearHistorySize_of_lt h.nearHistory_lt

/-- Why there is no estimator of the dimensions, in the order in which it comes to light. -/
inductive FailsWith (d : Dimensions) : Failure → Prop
  | farSize (h : sizeLimit ≤ d.candidates) : FailsWith d (.faulted (.overflow .add))
  | tooShort (h : d.candidates ≤ 1) : FailsWith d (.refused (.historyTooShort d.candidates))
  | nearSize (hfits : d.candidates < sizeLimit) (htwo : 2 ≤ d.candidates)
      (h : sizeLimit ≤ d.lookahead + 1) : FailsWith d (.faulted (.overflow .add))
  | capacity (hfits : d.candidates < sizeLimit) (htwo : 2 ≤ d.candidates)
      (hnear : d.lookahead + 1 < sizeLimit)
      (h : offsetLimit ≤ 4 * max d.candidates (d.lookahead + 1)) : FailsWith d (.faulted .capacity)

theorem accepted_or_failsWith (d : Dimensions) : d.Accepted ∨ ∃ failure, d.FailsWith failure := by
  by_cases hfits : d.candidates < sizeLimit
  · by_cases htwo : 2 ≤ d.candidates
    · by_cases hnear : d.lookahead + 1 < sizeLimit
      · by_cases hlarge : offsetLimit ≤ 4 * max d.candidates (d.lookahead + 1)
        · exact .inr ⟨_, .capacity hfits htwo hnear hlarge⟩
        · exact .inl ⟨htwo, by omega, by omega⟩
      · exact .inr ⟨_, .nearSize hfits htwo (by omega)⟩
    · exact .inr ⟨_, .tooShort (by omega)⟩
  · exact .inr ⟨_, .farSize (by omega)⟩

end Dimensions

namespace Estimator

/-- An estimator of accepted dimensions that has heard nothing. -/
def fresh (d : Dimensions) (h : d.Accepted) : Estimator :=
  silent d d.candidates (d.lookahead + 1) (by have := h.two_le; omega) (Nat.succ_pos _)

theorem allocate_of_lt {d : Dimensions} (hfits : d.candidates < sizeLimit)
    (hnear : d.lookahead + 1 < sizeLimit) (hpos : 0 < d.candidates) :
    allocate d = do
      faulting (checkedCapacity d.candidates)
      faulting (checkedCapacity (d.lookahead + 1))
      return silent d d.candidates (d.lookahead + 1) hpos (Nat.succ_pos _) := by
  simp only [allocate, Dimensions.historySize_of_lt hfits, Dimensions.nearHistorySize_of_lt hnear,
    reset_silent]
  exact dif_pos ⟨hpos, Nat.succ_pos _⟩

theorem create_fresh {d : Dimensions} (h : d.Accepted) : create d = ⟨.ok (fresh d h), []⟩ := by
  have htwo := h.two_le
  have hfar : checkedCapacity d.candidates = .ok () := if_pos h.far_fits
  have hnear : checkedCapacity (d.lookahead + 1) = .ok () := if_pos h.near_fits
  rw [create, Dimensions.validate_of_two_le h.candidates_lt htwo,
    allocate_of_lt h.candidates_lt h.nearHistory_lt (by omega), hfar, hnear]
  rfl

/-- Only a refusal is reported. -/
def failureEvents (d : Dimensions) : Failure → List Event
  | .refused cause => [.dimensionsRefused d cause]
  | .faulted _ => []

theorem create_of_failsWith {d : Dimensions} {failure : Failure} (h : d.FailsWith failure) :
    create d = ⟨.error failure, failureEvents d failure⟩ := by
  cases h with
  | farSize h =>
    have hsize : d.historySize = .error (.overflow .add) := if_neg (by rwa [not_lt])
    rw [create, Dimensions.validate, hsize]
    rfl
  | tooShort h =>
    have hshort : d.validate = .error (.refused (.historyTooShort d.candidates)) := by
      rw [Dimensions.validate, Dimensions.historySize_of_lt (by rw [sizeLimit]; omega)]
      exact if_pos h
    rw [create, hshort]
    rfl
  | nearSize hfits htwo h =>
    have hsize : d.nearHistorySize = .error (.overflow .add) := if_neg (by rwa [not_lt])
    rw [create, Dimensions.validate_of_two_le hfits htwo, allocate,
      Dimensions.historySize_of_lt hfits, hsize]
    rfl
  | capacity hfits htwo hnear h =>
    rw [create, Dimensions.validate_of_two_le hfits htwo, allocate_of_lt hfits hnear (by omega)]
    by_cases hfar : 4 * d.candidates < offsetLimit
    · rw [checkedCapacity, if_pos hfar, checkedCapacity, if_neg (by omega)]
      rfl
    · rw [checkedCapacity, if_neg hfar]
      rfl

/-- Only accepted dimensions give an estimator, and it is the fresh one. -/
theorem create_value_eq {d : Dimensions} {e : Estimator} (h : (create d).value = .ok e) :
    ∃ ha : d.Accepted, e = fresh d ha := by
  rcases d.accepted_or_failsWith with ha | ⟨failure, hfails⟩
  · rw [create_fresh ha] at h
    exact ⟨ha, (Except.ok.inj h).symm⟩
  · rw [create_of_failsWith hfails] at h
    cases h

/-- The invariant of the estimators of given dimensions. -/
structure Sound (d : Dimensions) (e : Estimator) : Prop where
  dimensions_eq : e.dimensions = d
  means_length : e.means.length = d.candidates
  means_inRange : ∀ v ∈ e.rawMeans, MeanInRange v
  distances_length : e.distances.length = d.candidates
  farHistory_size : e.farHistory.size = d.candidates
  farBitCounts_eq : e.farBitCounts.slots = e.farHistory.slots.map Spectrum.bitCount
  nearHistory_size : e.nearHistory.size = d.lookahead + 1
  minimum_ge : 8704 ≤ e.thresholds.minimumProbability.raw
  lastDelay_lt : ∀ c ∈ e.lastDelay, c < d.candidates

@[simp] theorem initialMean_raw : initialMean.raw = 10240 := by decide

theorem bitCount_zero : Spectrum.bitCount 0 = 0 := by decide

theorem rawMeans_fresh {d : Dimensions} (h : d.Accepted) :
    (fresh d h).rawMeans = List.replicate d.candidates 10240 := by
  rw [rawMeans, fresh, silent, List.map_replicate, initialMean_raw]

theorem sound_fresh {d : Dimensions} (h : d.Accepted) : Sound d (fresh d h) where
  dimensions_eq := rfl
  means_length := List.length_replicate
  means_inRange := by
    intro v hv
    rw [rawMeans_fresh] at hv
    rw [List.eq_of_mem_replicate hv]
    exact initial_inRange
  distances_length := List.length_replicate
  farHistory_size := by simp [fresh, silent]
  farBitCounts_eq := by
    rw [fresh, silent, History.slots_filled, History.slots_filled, List.map_replicate,
      bitCount_zero]
  nearHistory_size := by simp [fresh, silent]
  minimum_ge := by
    change 8704 ≤ Thresholds.initial.minimumProbability.raw
    simp
  lastDelay_lt := by simp [fresh, silent]

namespace Sound

variable {d : Dimensions} {e : Estimator}

theorem rawMeans_length (h : Sound d e) : e.rawMeans.length = d.candidates := by
  rw [Estimator.rawMeans_length, h.means_length]

theorem farBitCounts_size (h : Sound d e) : e.farBitCounts.size = d.candidates := by
  rw [History.size, h.farBitCounts_eq, List.length_map, ← History.size, h.farHistory_size]

/-- A reset forgets everything but the dimensions. -/
theorem reset_eq (h : Sound d e) (ha : d.Accepted) : e.reset = fresh d ha := by
  have htwo := ha.two_le
  rw [reset, fresh, silent, h.dimensions_eq, List.map_const', List.map_const', h.means_length,
    h.distances_length, History.fill_eq_filled 0 (by omega) h.farBitCounts_size,
    History.fill_eq_filled 0 (by omega) h.farHistory_size,
    History.fill_eq_filled 0 (Nat.succ_pos _) h.nearHistory_size]

end Sound

/-- The near-end spectrum that a frame is compared by. -/
def due (e : Estimator) (frame : Frame) : Spectrum :=
  if 1 < e.nearHistory.size then (e.nearHistory.push frame.near).oldest else frame.near

/-- What `e` has become in `after` by hearing the frame, its decision apart. -/
structure Heard (e : Estimator) (frame : Frame) (after : Estimator) : Prop where
  dimensions_eq : after.dimensions = e.dimensions
  farHistory_eq : after.farHistory = e.farHistory.push frame.far
  farBitCounts_eq : after.farBitCounts = e.farBitCounts.push frame.far.bitCount
  nearHistory_eq : after.nearHistory =
    if 1 < e.nearHistory.size then e.nearHistory.push frame.near else e.nearHistory
  distances_eq : after.distances = after.farHistory.slots.map (e.due frame).distance
  rawMeans_eq : after.rawMeans =
    smoothedMeans e.rawMeans after.distances after.farBitCounts.slots

/-- An assessment leaves what was heard alone. -/
theorem Heard.assessed {e after : Estimator} {frame : Frame} (h : Heard e frame after)
    (thresholds : Thresholds) (lastDelay : Option Nat) :
    Heard e frame { after with thresholds, lastDelay } :=
  ⟨h.dimensions_eq, h.farHistory_eq, h.farBitCounts_eq, h.nearHistory_eq, h.distances_eq,
    h.rawMeans_eq⟩

/-- All that a frame does to `e`. -/
structure Processed (e : Estimator) (frame : Frame) (o : Outcome) : Prop
  extends Heard e frame o.estimator, Decided e o

theorem map_distance_le (spectrum : Spectrum) (rows : List Spectrum) :
    ∀ n ∈ rows.map spectrum.distance, n ≤ 32 := by
  intro n hn
  obtain ⟨row, -, rfl⟩ := List.mem_map.mp hn
  exact Spectrum.bitCount_le _

theorem map_bitCount_le (rows : List Spectrum) : ∀ n ∈ rows.map Spectrum.bitCount, n ≤ 32 := by
  intro n hn
  obtain ⟨row, -, rfl⟩ := List.mem_map.mp hn
  exact Spectrum.bitCount_le row

namespace Sound

variable {d : Dimensions} {e : Estimator}

theorem farBitCounts_push (h : Sound d e) (frame : Frame) :
    (e.farBitCounts.push frame.far.bitCount).slots =
      (e.farHistory.push frame.far).slots.map Spectrum.bitCount := by
  rw [History.slots_push, History.slots_push, h.farBitCounts_eq, List.map_cons, List.map_dropLast]

/-- Listening never faults. -/
theorem listen_eq (h : Sound d e) (frame : Frame) :
    ∃ after, e.listen frame = .ok after ∧ Heard e frame after ∧
      after.thresholds = e.thresholds ∧ after.lastDelay = e.lastDelay := by
  let farHistory := e.farHistory.push frame.far
  let farBitCounts := e.farBitCounts.push frame.far.bitCount
  let distances := farHistory.slots.map (e.due frame).distance
  have hsize : farHistory.slots.length = e.distances.length := by
    rw [h.distances_length, ← h.farHistory_size]
    exact History.size_push _ _
  have hcompare : (e.due frame).compareRows farHistory.slots e.distances = .ok distances :=
    if_pos hsize
  have hcounts : ∀ n ∈ farBitCounts.slots, n ≤ 32 := by
    rw [h.farBitCounts_push frame]
    exact map_bitCount_le _
  obtain ⟨means, hmeans, hraw⟩ := smoothMeans_eq e.means distances farBitCounts.slots
    (fun mean hm => h.means_inRange _ (List.mem_map_of_mem hm)) (map_distance_le _ _) hcounts
  let nearHistory := if 1 < e.nearHistory.size then e.nearHistory.push frame.near else e.nearHistory
  have hdue :
      (if 1 < e.nearHistory.size then nearHistory.oldest else frame.near) = e.due frame := by
    simp only [nearHistory, due]
    split <;> rfl
  refine ⟨{ e with means, farBitCounts, distances, farHistory, nearHistory }, ?_,
    ⟨rfl, rfl, rfl, rfl, rfl, hraw⟩, rfl, rfl⟩
  change (Spectrum.compareRows (if 1 < e.nearHistory.size then nearHistory.oldest else frame.near)
    farHistory.slots e.distances >>= _) = _
  rw [hdue, hcompare]
  change (smoothMeans e.means distances farBitCounts.slots >>= _) = _
  rw [hmeans]
  rfl

theorem rawMeans_ne_nil (h : Sound d e) (ha : d.Accepted) : e.rawMeans ≠ [] := by
  have htwo := ha.two_le
  have hlength := h.rawMeans_length
  rintro hnil
  rw [hnil, List.length_nil] at hlength
  omega

theorem heard (h : Sound d e) {frame : Frame} {after : Estimator} (hh : Heard e frame after)
    (hmin : 8704 ≤ after.thresholds.minimumProbability.raw)
    (hdelay : ∀ c ∈ after.lastDelay, c < d.candidates) : Sound d after where
  dimensions_eq := hh.dimensions_eq.trans h.dimensions_eq
  means_length := by
    rw [← Estimator.rawMeans_length, hh.rawMeans_eq, smoothedMeans_length, h.rawMeans_length]
  means_inRange := by
    rw [hh.rawMeans_eq]
    apply smoothedMeans_inRange h.means_inRange
    · rw [hh.distances_eq]
      exact map_distance_le _ _
    · rw [hh.farBitCounts_eq, h.farBitCounts_push frame]
      exact map_bitCount_le _
  distances_length := by
    rw [hh.distances_eq, List.length_map, hh.farHistory_eq, ← h.farHistory_size]
    exact History.size_push _ _
  farHistory_size := by rw [hh.farHistory_eq, History.size_push, h.farHistory_size]
  farBitCounts_eq := by rw [hh.farBitCounts_eq, hh.farHistory_eq, h.farBitCounts_push]
  nearHistory_size := by
    rw [hh.nearHistory_eq]
    split
    · rw [History.size_push, h.nearHistory_size]
    · exact h.nearHistory_size
  minimum_ge := hmin
  lastDelay_lt := hdelay

/-- The invariant holds of what has been heard before it is assessed. -/
theorem listen_sound (h : Sound d e) (frame : Frame) :
    ∃ after, e.listen frame = .ok after ∧ Heard e frame after ∧
      after.thresholds = e.thresholds ∧ after.lastDelay = e.lastDelay ∧ Sound d after := by
  obtain ⟨after, hlisten, hheard, hthresholds, hlast⟩ := h.listen_eq frame
  exact ⟨after, hlisten, hheard, hthresholds, hlast,
    h.heard hheard (hthresholds ▸ h.minimum_ge) (hlast ▸ h.lastDelay_lt)⟩

/-- Every mean after a frame comes from the mean before it by one step of its own candidate. -/
theorem mean_step (h : Sound d e) {frame : Frame} {after : Estimator} (hh : Heard e frame after)
    (hafter : Sound d after) {i : Nat} {v : Int} (hv : after.rawMeans[i]? = some v) :
    ∃ before far distance, e.rawMeans[i]? = some before ∧
      after.farHistory.slots[i]? = some far ∧ after.distances[i]? = some distance ∧
      v = smoothedMean before distance far.bitCount := by
  obtain ⟨hi, -⟩ := List.getElem?_eq_some_iff.mp hv
  rw [hafter.rawMeans_length] at hi
  have hrow : i < after.farHistory.slots.length := by
    rw [← History.size, hafter.farHistory_size]
    exact hi
  have hbefore := List.getElem?_eq_getElem (by rwa [h.rawMeans_length] : i < e.rawMeans.length)
  have hdistance :=
    List.getElem?_eq_getElem (by rwa [hafter.distances_length] : i < after.distances.length)
  have hfar := List.getElem?_eq_getElem hrow
  have hcount : after.farBitCounts.slots[i]? =
      some (after.farHistory.slots.get ⟨i, hrow⟩).bitCount := by
    rw [hafter.farBitCounts_eq, List.getElem?_map, hfar]
    rfl
  refine ⟨_, _, _, hbefore, hfar, hdistance, ?_⟩
  rw [hh.rawMeans_eq, smoothedMeans_getElem? hbefore hdistance hcount] at hv
  exact (Option.some.inj hv).symm

/-- The same step by candidate. -/
theorem mean_at (h : Sound d e) {frame : Frame} {after : Estimator} (hh : Heard e frame after)
    (hafter : Sound d after) {i : Nat} (hi : i < d.candidates) :
    ∃ before far distance, e.rawMeans[i]? = some before ∧
      after.farHistory.slots[i]? = some far ∧ after.distances[i]? = some distance ∧
      after.rawMeans[i]? = some (smoothedMean before distance far.bitCount) := by
  have hv := List.getElem?_eq_getElem (by rwa [hafter.rawMeans_length] : i < after.rawMeans.length)
  obtain ⟨before, far, distance, hbefore, hfar, hdistance, heq⟩ := h.mean_step hh hafter hv
  exact ⟨before, far, distance, hbefore, hfar, hdistance, heq ▸ hv⟩

/-- All means of a frame are pulled by distances from the same near end. -/
theorem mean_due (h : Sound d e) {frame : Frame} {after : Estimator} (hh : Heard e frame after)
    (hafter : Sound d after) {v : Int} (hv : v ∈ after.rawMeans) :
    ∃ before ∈ e.rawMeans, ∃ far : Spectrum,
      v = smoothedMean before ((e.due frame).distance far) far.bitCount := by
  obtain ⟨i, hi⟩ := List.getElem?_of_mem hv
  obtain ⟨before, far, distance, hbefore, hfar, hdistance, rfl⟩ := h.mean_step hh hafter hi
  rw [hh.distances_eq, List.getElem?_map, hfar, Option.map_some, Option.some.injEq] at hdistance
  exact ⟨before, List.mem_of_getElem? hbefore, far, by rw [hdistance]⟩

/-- A frame never faults and keeps the invariant. -/
theorem process_eq (h : Sound d e) (ha : d.Accepted) (frame : Frame) :
    ∃ o, e.process frame = .ok o ∧ Processed e frame o ∧ Sound d o.estimator := by
  obtain ⟨after, hlisten, hheard, hthresholds, hlast, hsound⟩ := h.listen_sound frame
  have hne := hsound.rawMeans_ne_nil ha
  obtain ⟨o, hassess, hdecided, hestimator⟩ :=
    after.assess_eq hne hsound.means_inRange hsound.minimum_ge
  have hprocess : e.process frame = .ok o := by
    rw [process, hlisten]
    exact hassess
  have hmeans : o.estimator.rawMeans = after.rawMeans := by
    rw [hestimator]
    rfl
  have hheard' : Heard e frame o.estimator := by
    rw [hestimator]
    exact hheard.assessed _ _
  have hdecided' : Decided e o := hdecided.congr hthresholds hlast
  have hmin : 8704 ≤ o.estimator.thresholds.minimumProbability.raw := by
    rw [hdecided'.minimum_eq]
    exact Thresholds.lowered_ge h.minimum_ge
  have hdelay : ∀ c ∈ o.estimator.lastDelay, c < d.candidates := by
    rw [← hsound.rawMeans_length, ← hmeans]
    apply hdecided'.lastDelay_lt (hmeans ▸ hne)
    rw [hmeans, hsound.rawMeans_length]
    exact h.lastDelay_lt
  exact ⟨o, hprocess, ⟨hheard', hdecided'⟩, h.heard hheard' hmin hdelay⟩

end Sound

end Estimator
end EchoDelay
