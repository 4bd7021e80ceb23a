import EchoDelay.Proofs.DelayedStream
import Mathlib.Order.Bounds.Defs

/-!
# The positions of a delayed stream

Positions are wrapped into offsets and back, and a sum may overflow, but a frame that gets through
has its spectra at the positions that exact integers give. A base of fewer than two to the 61
spectra ends below every wrapped position, so whatever goes wrong on the way ends the stream, at the
first frame of which one of the two positions lies outside of the base.
-/
namespace EchoDelay.DelayedSpectra

theorem Stream.ofResults_frames_getElem? {results : List (Except Fault Frame)} {k : Nat}
    {frame : Frame} (h : (ofResults results).frames[k]? = some frame) :
    results[k]? = some (.ok frame) := by
  induction results generalizing k with
  | nil => simp [ofResults] at h
  | cons result results ih =>
    cases result with
    | error fault => simp [ofResults] at h
    | ok first =>
      cases k with
      | zero => simpa [ofResults] using h
      | succ k => exact ih (by simpa [ofResults] using h)

/-- After the last frame the results have a fault or end. -/
theorem Stream.ofResults_stop (results : List (Except Fault Frame)) :
    results[(ofResults results).frames.length]? = (ofResults results).stop.map .error := by
  induction results with
  | nil => rfl
  | cons result results ih =>
    cases result with
    | error fault => rfl
    | ok first => simpa [ofResults] using ih

variable {s : DelayedSpectra}

/-- Frame `k` of the stream, with both positions taken as integers. -/
def HasFrame (s : DelayedSpectra) (k : Nat) (frame : Frame) : Prop :=
  ∃ moved : Nat, (moved : Int) = (s.dimensions.lookahead + k : Nat) + s.offset ∧
    s.base[moved]? = some frame.far ∧ s.base[s.dimensions.lookahead + k]? = some frame.near

/-- Both positions of frame `k` lie in the base. -/
def InBase (s : DelayedSpectra) (k : Nat) : Prop :=
  (0 ≤ ((s.dimensions.lookahead + k : Nat) : Int) + s.offset ∧
      ((s.dimensions.lookahead + k : Nat) : Int) + s.offset < s.base.size) ∧
    s.dimensions.lookahead + k < s.base.size

instance (s : DelayedSpectra) (k : Nat) : Decidable (s.InBase k) :=
  inferInstanceAs (Decidable ((_ ∧ _) ∧ _))

theorem inBase_iff {k : Nat} : s.InBase k ↔ ∃ frame, s.HasFrame k frame := by
  constructor
  · rintro ⟨⟨hnonneg, hfar⟩, hnear⟩
    obtain ⟨moved, hmoved⟩ := Int.eq_ofNat_of_zero_le hnonneg
    have hsize : moved < s.base.size := by omega
    exact ⟨⟨s.base[moved], s.base[s.dimensions.lookahead + k]⟩, moved, hmoved.symm,
      Array.getElem?_eq_getElem hsize, Array.getElem?_eq_getElem hnear⟩
  · rintro ⟨frame, moved, hmoved, hfar, hnear⟩
    obtain ⟨hfar, -⟩ := Array.getElem?_eq_some_iff.mp hfar
    obtain ⟨hnear, -⟩ := Array.getElem?_eq_some_iff.mp hnear
    exact ⟨by omega, hnear⟩

theorem spectrumAt_eq_ok_iff {position : Nat} {spectrum : Spectrum} :
    s.spectrumAt position = .ok spectrum ↔ s.base[position]? = some spectrum := by
  rw [spectrumAt]
  cases s.base[position]? <;> simp

/-- A frame gets through by three successes in a row. -/
theorem frameAt_eq_ok_iff {position : Nat} {frame : Frame} :
    s.frameAt position = .ok frame ↔
      ∃ moved, checkedOffset .add (offsetOfSize position + s.offset) = .ok moved ∧
        s.base[sizeOfOffset moved]? = some frame.far ∧ s.base[position]? = some frame.near := by
  simp only [frameAt, bind_eq_ok_iff, spectrumAt_eq_ok_iff]
  constructor
  · rintro ⟨moved, hmoved, far, hfar, near, hnear, hframe⟩
    obtain rfl := Except.ok.inj hframe
    exact ⟨moved, hmoved, hfar, hnear⟩
  · rintro ⟨moved, hmoved, hfar, hnear⟩
    exact ⟨moved, hmoved, _, hfar, _, hnear, rfl⟩

/-- The base ends where a position would no longer survive the conversions. -/
theorem frameAt_eq_ok_iff_hasFrame (hbase : s.base.size ≤ offsetLimit) {k : Nat} {frame : Frame} :
    s.frameAt (s.dimensions.lookahead + k) = .ok frame ↔ s.HasFrame k frame := by
  constructor
  · intro h
    obtain ⟨moved, hmoved, hfar, hnear⟩ := frameAt_eq_ok_iff.mp h
    obtain ⟨hfarSize, -⟩ := Array.getElem?_eq_some_iff.mp hfar
    obtain ⟨hnearSize, -⟩ := Array.getElem?_eq_some_iff.mp hnear
    obtain ⟨⟨hl, hg⟩, rfl⟩ := checkedOffset_eq_ok_iff.mp hmoved
    rw [offsetOfSize_of_lt (by omega)] at hl hg hfar hfarSize
    exact ⟨_, natCast_sizeOfOffset hl hg (by omega), hfar, hnear⟩
  · rintro ⟨moved, hmoved, hfar, hnear⟩
    obtain ⟨⟨-, hfarSize⟩, hnearSize⟩ := inBase_iff.mpr ⟨frame, moved, hmoved, hfar, hnear⟩
    rw [frameAt_eq hmoved.symm hnearSize (by omega) (by omega) (by omega), baseAt, baseAt, hfar,
      hnear]
    rfl

theorem results_getElem?_eq_some_iff {k : Nat} {result : Except Fault Frame} :
    s.results[k]? = some result ↔
      k < frameCount ∧ s.frameAt (s.dimensions.lookahead + k) = result := by
  by_cases hk : k < frameCount
  · rw [results, getElem?_map_range _ hk]
    simp [hk]
  · rw [List.getElem?_eq_none (by simpa [results] using hk)]
    simp [hk]

theorem results_getElem?_eq_none_iff {k : Nat} : s.results[k]? = none ↔ frameCount ≤ k := by
  simp [results]

theorem stream_eq_of_overflow (h : sizeLimit ≤ s.dimensions.lookahead + frameCount) :
    s.stream = ⟨[], some (.overflow .add)⟩ := by
  unfold stream
  rw [checkedSize_of_ge .add h]

section Base

variable (hbase : s.base.size ≤ offsetLimit)
include hbase

theorem stream_hasFrame {k : Nat} {frame : Frame} (h : s.stream.frames[k]? = some frame) :
    k < frameCount ∧ s.HasFrame k frame := by
  rcases lt_or_ge (s.dimensions.lookahead + frameCount) sizeLimit with hend | hend
  · rw [stream_eq_ofResults hend] at h
    rw [← frameAt_eq_ok_iff_hasFrame hbase]
    exact results_getElem?_eq_some_iff.mp (Stream.ofResults_frames_getElem? h)
  · rw [stream_eq_of_overflow hend] at h
    simp at h

/-- A stream ends with its last frame or at a frame that is not in the base. -/
theorem stream_stop :
    (s.stream.stop = none ∧ frameCount ≤ s.stream.frames.length) ∨
      s.stream.stop ≠ none ∧ s.stream.frames.length < frameCount ∧
        ¬ s.InBase s.stream.frames.length := by
  rcases lt_or_ge (s.dimensions.lookahead + frameCount) sizeLimit with hend | hend
  · rw [stream_eq_ofResults hend]
    have hcut := Stream.ofResults_stop s.results
    cases hstop : (Stream.ofResults s.results).stop with
    | none =>
      rw [hstop] at hcut
      exact .inl ⟨rfl, results_getElem?_eq_none_iff.mp hcut⟩
    | some fault =>
      rw [hstop] at hcut
      obtain ⟨hlength, hfault⟩ := results_getElem?_eq_some_iff.mp hcut
      refine .inr ⟨by simp, hlength, fun hinside => ?_⟩
      obtain ⟨frame, hframe⟩ := inBase_iff.mp hinside
      rw [← frameAt_eq_ok_iff_hasFrame hbase, hfault] at hframe
      cases hframe
  · rw [stream_eq_of_overflow hend]
    refine .inr ⟨by simp, by decide, fun hinside => ?_⟩
    have hnear := hinside.2
    have hcount : frameCount = 1200 := rfl
    rw [sizeLimit] at hend
    rw [offsetLimit] at hbase
    simp at hnear
    omega

theorem inBase_of_lt {k : Nat} (hk : k < s.stream.frames.length) : s.InBase k :=
  inBase_iff.mpr ⟨_, (stream_hasFrame hbase (List.getElem?_eq_getElem hk)).2⟩

end Base

/-- The frames of a stream are those at the exact positions, as many as come before the first that
is not in the base, and only a stream without such a frame ends without a fault. -/
theorem stream_exact (hbase : s.base.size < 2 ^ 61) :
    (∀ k frame, s.stream.frames[k]? = some frame → s.HasFrame k frame) ∧
    IsLeast {k | k = 1200 ∨ ¬ s.InBase k} s.stream.frames.length ∧
    (s.stream.stop = none ↔ ∀ k < 1200, s.InBase k) := by
  have hlimit : s.base.size ≤ offsetLimit := by
    rw [offsetLimit]
    omega
  have hinside : ∀ k < s.stream.frames.length, s.InBase k := fun k hk => inBase_of_lt hlimit hk
  have hcount : s.stream.frames.length ≤ 1200 := by
    by_contra! hmore
    exact lt_irrefl _ (stream_hasFrame hlimit (List.getElem?_eq_getElem hmore)).1
  refine ⟨fun k frame hframe => (stream_hasFrame hlimit hframe).2, ⟨?_, ?_⟩, ?_⟩
  · rcases stream_stop hlimit with ⟨-, hend⟩ | ⟨-, -, houtside⟩
    · exact .inl (le_antisymm hcount hend)
    · exact .inr houtside
  · rintro k (rfl | houtside)
    · exact hcount
    · exact not_lt.mp fun hk => houtside (hinside k hk)
  · rcases stream_stop hlimit with ⟨hnone, hend⟩ | ⟨hsome, hlt, houtside⟩
    · exact ⟨fun _ k hk => hinside k (lt_of_lt_of_le hk hend), fun _ => hnone⟩
    · exact ⟨fun hnone => absurd hnone hsome, fun hall => absurd (hall _ hlt) houtside⟩

/-- Five spectra, of which the far end is always one ahead of the near end. -/
def oneAhead : DelayedSpectra := ⟨⟨3, 1⟩, 1, #[1, 3, 9, 27, 81]⟩

theorem oneAhead_isLeast : IsLeast {k | k = 1200 ∨ ¬ oneAhead.InBase k} 3 := by
  refine ⟨.inr (by decide), ?_⟩
  rintro k (rfl | houtside)
  · decide
  · by_contra! hk
    interval_cases k <;> exact houtside (by decide)

theorem stream_exact_oneAhead :
    oneAhead.base.size < 2 ^ 61 ∧ oneAhead.stream.frames.length = 3 ∧
      oneAhead.stream.stop ≠ none ∧ oneAhead.stream.frames[2]? = some ⟨81, 27⟩ := by
  have hbase : oneAhead.base.size < 2 ^ 61 := by decide
  obtain ⟨hframes, hleast, hstop⟩ := stream_exact hbase
  have hlength : oneAhead.stream.frames.length = 3 := hleast.unique oneAhead_isLeast
  refine ⟨hbase, hlength, fun hnone => ?_, ?_⟩
  · exact absurd (hstop.mp hnone 3 (by decide)) (by decide)
  · cases hframe : oneAhead.stream.frames[2]? with
    | none =>
      rw [List.getElem?_eq_none_iff] at hframe
      omega
    | some frame =>
      obtain ⟨moved, hmoved, hfar, hnear⟩ := hframes 2 frame hframe
      obtain rfl : moved = 4 := by
        change (moved : Int) = 3 + 1 at hmoved
        omega
      cases frame with
      | mk far near =>
        obtain rfl : 81 = far := Option.some.inj hfar
        obtain rfl : 27 = near := Option.some.inj hnear
        rfl

/-- The far end is found again by wrapping, the near end is not. -/
example : frameAt ⟨⟨3, 9223372036854775813⟩, 9223372036854775807, #[1, 3, 9, 27, 81]⟩
    9223372036854775813 = .error (.outOfBounds 5 9223372036854775813) := by rfl

end EchoDelay.DelayedSpectra
