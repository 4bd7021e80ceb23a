import EchoDelay.Track
import Mathlib.Data.Finset.Max
import Mathlib.Data.List.Induction

/-!
# The metric of tracks

Two equally long tracks can be compared in one pass that keeps the first mismatch, the number of
mismatches and the number of frames so far. After every frame the number is that of the frames at
which the tracks differ, and the first mismatch is the least of them, so the two agree on whether
there is one. The number of mismatches is a metric on the tracks of one length.
-/
namespace EchoDelay

variable {α : Type} [DecidableEq α]

/-- The frames at which two tracks differ. -/
def differingFrames (a b : List α) : Finset Nat :=
  (Finset.range a.length).filter fun k => a[k]? ≠ b[k]?

section Tracks

variable {a b : List α}

theorem mem_differingFrames (h : a.length = b.length) {k : Nat} :
    k ∈ differingFrames a b ↔ a[k]? ≠ b[k]? := by
  rw [differingFrames, Finset.mem_filter, Finset.mem_range, and_iff_right_iff_imp]
  intro hne
  by_contra! hle
  rw [List.getElem?_eq_none hle, List.getElem?_eq_none (h ▸ hle)] at hne
  exact hne rfl

theorem coe_differingFrames (h : a.length = b.length) :
    (differingFrames a b : Set Nat) = {k | a[k]? ≠ b[k]?} := by
  ext k
  exact mem_differingFrames h

theorem differingFrames_comm (h : a.length = b.length) :
    differingFrames a b = differingFrames b a := by
  ext k
  rw [mem_differingFrames h, mem_differingFrames h.symm, ne_comm]

theorem differingFrames_eq_empty_iff (h : a.length = b.length) :
    differingFrames a b = ∅ ↔ a = b := by
  rw [Finset.eq_empty_iff_forall_notMem, List.ext_getElem?_iff]
  simp [mem_differingFrames h]

theorem card_differingFrames_le (a b : List α) : (differingFrames a b).card ≤ a.length := by
  simpa [differingFrames] using
    Finset.card_filter_le (Finset.range a.length) fun k => a[k]? ≠ b[k]?

/-- Where two tracks differ, a third one differs from one of the two. -/
theorem differingFrames_subset {c : List α} (hab : a.length = b.length)
    (hbc : b.length = c.length) :
    differingFrames a c ⊆ differingFrames a b ∪ differingFrames b c := by
  intro k
  rw [Finset.mem_union, mem_differingFrames hab, mem_differingFrames hbc,
    mem_differingFrames (hab.trans hbc)]
  contrapose!
  rintro ⟨hleft, hright⟩
  exact hleft.trans hright

/-- One more frame of both adds its position if they differ there. -/
theorem differingFrames_concat (h : a.length = b.length) (x y : α) :
    differingFrames (a ++ [x]) (b ++ [y]) =
      if x ≠ y then insert a.length (differingFrames a b) else differingFrames a b := by
  have hlast : ((a ++ [x])[a.length]? ≠ (b ++ [y])[a.length]?) ↔ x ≠ y := by
    rw [List.getElem?_concat_length, h, List.getElem?_concat_length, Ne, Option.some_inj]
  have hbefore : (Finset.range a.length).filter (fun k => (a ++ [x])[k]? ≠ (b ++ [y])[k]?) =
      differingFrames a b := by
    apply Finset.filter_congr
    intro k hk
    rw [Finset.mem_range] at hk
    rw [List.getElem?_append_left hk, List.getElem?_append_left (h ▸ hk)]
  rw [differingFrames, List.length_append, List.length_singleton, Finset.range_add_one,
    Finset.filter_insert, hbefore]
  exact if_congr hlast rfl rfl

end Tracks

/-- A position after all others is the least only if there are no others. -/
theorem isLeast_insert_iff {positions : Finset Nat} {last k : Nat}
    (h : ∀ position ∈ positions, position < last) :
    IsLeast (↑(insert last positions) : Set Nat) k ↔
      IsLeast (positions : Set Nat) k ∨ positions = ∅ ∧ last = k := by
  rw [Finset.coe_insert]
  rcases positions.eq_empty_or_nonempty with rfl | hne
  · rw [Finset.coe_empty, insert_empty_eq]
    constructor
    · intro hk
      exact .inr ⟨rfl, isLeast_singleton.unique hk⟩
    · rintro (hk | ⟨-, rfl⟩)
      · exact hk.1.elim
      · exact isLeast_singleton
  · have hfirst := positions.isLeast_min' hne
    have hinsert : IsLeast (insert last (positions : Set Nat)) (positions.min' hne) := by
      have := hfirst.insert last
      rwa [min_eq_right (h _ hfirst.1).le] at this
    simp only [hne.ne_empty, false_and, or_false]
    exact ⟨fun hk => hk.unique hinsert ▸ hfirst, fun hk => hk.unique hfirst ▸ hinsert⟩

namespace Comparison

theorem foldl_extend (frames : List (α × α)) :
    frames.foldl extend empty =
      ⟨frames.findIdx? fun frame => frame.1 ≠ frame.2,
        frames.countP fun frame => frame.1 ≠ frame.2, frames.length⟩ := by
  induction frames using List.reverseRecOn with
  | nil => rfl
  | append_singleton frames frame ih =>
    rw [List.foldl_append, List.foldl_cons, List.foldl_nil, ih, extend, List.findIdx?_append,
      List.countP_append]
    by_cases hdiffers : frame.1 ≠ frame.2 <;> simp [hdiffers]

theorem ofTracks_eq_inOnePass {a b : List α} (h : a.length = b.length) :
    ofTracks a b = .ok (inOnePass a b) := by
  rw [ofTracks, if_pos h, inOnePass, foldl_extend, List.length_zip, ← h, Nat.min_self]

/-- What a comparison of two tracks says is so. -/
structure Exact (a b : List α) (c : Comparison) : Prop where
  total_eq : c.total = a.length
  mismatches_eq : c.mismatches = (differingFrames a b).card
  firstMismatch_eq : ∀ k, c.firstMismatch = some k ↔ IsLeast (differingFrames a b : Set Nat) k

namespace Exact

variable {a b : List α} {c : Comparison}

theorem firstMismatch_eq_none_iff (hc : Exact a b c) :
    c.firstMismatch = none ↔ differingFrames a b = ∅ := by
  rw [← Finset.not_nonempty_iff_eq_empty, Option.eq_none_iff_forall_ne_some]
  constructor
  · intro hnone hne
    exact hnone _ ((hc.firstMismatch_eq _).mpr (Finset.isLeast_min' _ hne))
  · intro hempty k hk
    exact hempty ⟨k, ((hc.firstMismatch_eq k).mp hk).1⟩

/-- Two tracks have one comparison only. -/
theorem unique {c' : Comparison} (hc : Exact a b c) (hc' : Exact a b c') : c = c' := by
  obtain ⟨first, mismatches, total⟩ := c
  obtain ⟨first', mismatches', total'⟩ := c'
  obtain rfl : total = total' := hc.total_eq.trans hc'.total_eq.symm
  obtain rfl : mismatches = mismatches' := hc.mismatches_eq.trans hc'.mismatches_eq.symm
  obtain rfl : first = first' :=
    Option.ext fun k => (hc.firstMismatch_eq k).trans (hc'.firstMismatch_eq k).symm
  rfl

theorem symm (h : a.length = b.length) (hc : Exact a b c) : Exact b a c where
  total_eq := hc.total_eq.trans h
  mismatches_eq := by rw [hc.mismatches_eq, differingFrames_comm h]
  firstMismatch_eq k := by rw [hc.firstMismatch_eq k, differingFrames_comm h]

theorem empty : Exact ([] : List α) [] empty where
  total_eq := rfl
  mismatches_eq := rfl
  firstMismatch_eq k := by simp [Comparison.empty, differingFrames, IsLeast]

/-- All frames so far come before the next one, so it is the first mismatch only if there was
none. -/
theorem extend (h : a.length = b.length) (hc : Exact a b c) (x y : α) :
    Exact (a ++ [x]) (b ++ [y]) (c.extend (x, y)) := by
  have htotal : c.total + 1 = (a ++ [x]).length := by
    rw [hc.total_eq, List.length_append, List.length_singleton]
  have hbefore : ∀ k ∈ differingFrames a b, k < a.length := by
    intro k hk
    exact Finset.mem_range.mp (Finset.mem_filter.mp hk).1
  by_cases hdiffers : x ≠ y
  · rw [Comparison.extend, if_pos hdiffers]
    refine ⟨htotal, ?_, fun k => ?_⟩
    · rw [differingFrames_concat h, if_pos hdiffers,
        Finset.card_insert_of_notMem fun hlast => (hbefore _ hlast).false, hc.mismatches_eq]
    · rw [differingFrames_concat h, if_pos hdiffers, isLeast_insert_iff hbefore,
        ← hc.firstMismatch_eq, ← hc.firstMismatch_eq_none_iff, ← hc.total_eq,
        Option.or_eq_some_iff, Option.some_inj]
  · rw [Comparison.extend, if_neg hdiffers]
    refine ⟨htotal, ?_, fun k => ?_⟩
    · rw [differingFrames_concat h, if_neg hdiffers, hc.mismatches_eq]
    · rw [differingFrames_concat h, if_neg hdiffers, hc.firstMismatch_eq]

/-- One pass is exact on any two tracks of one length. -/
theorem inOnePass (h : a.length = b.length) : Exact a b (inOnePass a b) := by
  -- The induction is on the pairs, of which both tracks are projections.
  have hpass (frames : List (α × α)) :
      Exact (frames.map Prod.fst) (frames.map Prod.snd)
        (frames.foldl Comparison.extend .empty) := by
    induction frames using List.reverseRecOn with
    | nil => exact .empty
    | append_singleton frames frame ih =>
      rw [List.map_append, List.map_append, List.foldl_append]
      exact ih.extend (by simp) frame.1 frame.2
  have hframes := hpass (a.zip b)
  rwa [List.map_fst_zip h.le, List.map_snd_zip h.ge] at hframes

theorem isIdentical_iff (h : a.length = b.length) (hc : Exact a b c) :
    c.isIdentical = true ↔ a = b := by
  rw [isIdentical, decide_eq_true_iff, hc.mismatches_eq, Finset.card_eq_zero,
    differingFrames_eq_empty_iff h]

theorem firstMismatch_eq_none_iff_eq (h : a.length = b.length) (hc : Exact a b c) :
    c.firstMismatch = none ↔ a = b :=
  hc.firstMismatch_eq_none_iff.trans (differingFrames_eq_empty_iff h)

theorem triangle {other : List α} {near far : Comparison} (h : a.length = b.length)
    (hother : b.length = other.length) (hc : Exact a b c) (hnear : Exact b other near)
    (hfar : Exact a other far) : far.mismatches ≤ c.mismatches + near.mismatches := by
  rw [hfar.mismatches_eq, hc.mismatches_eq, hnear.mismatches_eq]
  calc (differingFrames a other).card
      ≤ (differingFrames a b ∪ differingFrames b other).card :=
        Finset.card_le_card (differingFrames_subset h hother)
    _ ≤ (differingFrames a b).card + (differingFrames b other).card := Finset.card_union_le _ _

end Exact

theorem ofTracks_eq_error_iff {a b : List α} {fault : Fault} :
    ofTracks a b = .error fault ↔
      a.length ≠ b.length ∧ fault = .unequalTracks a.length b.length := by
  rw [ofTracks]
  split <;> simp [*, eq_comm]

/-- The text speaks of identical tracks just when there is no first mismatch. -/
theorem describe_eq_identical_iff (c : Comparison) :
    c.describe = s!"identical ({c.total} frames)" ↔ c.firstMismatch = none := by
  rw [describe]
  cases c.firstMismatch with
  | none => simp
  | some frame =>
    refine iff_of_false (fun htext => ?_) (by simp)
    -- The two texts differ in their first letters already.
    have hinitial := congrArg (fun text => text.toList.head?) htext
    simp [toString] at hinitial

/-- Tracks of different lengths are refused. Two of one length are compared exactly, in one pass and
in either order; the text, the first mismatch and the number of mismatches agree on whether they are
the same; and the number obeys the triangle inequality. -/
theorem ofTracks_metric (a b : List α) :
    (∀ fault, ofTracks a b = .error fault ↔
      a.length ≠ b.length ∧ fault = .unequalTracks a.length b.length) ∧
    (a.length = b.length → ∃ c, ofTracks a b = .ok c ∧ inOnePass a b = c ∧
      c.total = a.length ∧ c.mismatches = (differingFrames a b).card ∧ c.mismatches ≤ c.total ∧
      (∀ k, c.firstMismatch = some k ↔ IsLeast {k | a[k]? ≠ b[k]?} k) ∧
      (c.isIdentical = true ↔ a = b) ∧ (c.firstMismatch = none ↔ a = b) ∧
      (c.describe = s!"identical ({c.total} frames)" ↔ c.isIdentical = true) ∧
      (∀ k, c.firstMismatch = some k →
        c.describe = s!"mismatches={c.mismatches}/{c.total} (first at frame {k})") ∧
      ofTracks b a = .ok c ∧
      ∀ other, other.length = b.length → ∃ near far, ofTracks b other = .ok near ∧
        ofTracks a other = .ok far ∧ far.mismatches ≤ c.mismatches + near.mismatches) := by
  refine ⟨fun fault => ofTracks_eq_error_iff, fun h => ?_⟩
  have hc := Exact.inOnePass h
  refine ⟨_, ofTracks_eq_inOnePass h, rfl, hc.total_eq, hc.mismatches_eq, ?_, ?_,
    hc.isIdentical_iff h, hc.firstMismatch_eq_none_iff_eq h, ?_, ?_, ?_, ?_⟩
  · rw [hc.mismatches_eq, hc.total_eq]
    exact card_differingFrames_le a b
  · rw [← coe_differingFrames h]
    exact hc.firstMismatch_eq
  · rw [describe_eq_identical_iff, hc.firstMismatch_eq_none_iff_eq h, hc.isIdentical_iff h]
  · intro k hk
    rw [describe, hk]
  · rw [ofTracks_eq_inOnePass h.symm, (Exact.inOnePass h.symm).unique (hc.symm h)]
  · intro other hother
    have hfar := h.trans hother.symm
    exact ⟨_, _, ofTracks_eq_inOnePass hother.symm, ofTracks_eq_inOnePass hfar,
      hc.triangle h hother.symm (.inOnePass hother.symm) (.inOnePass hfar)⟩

/-- A track that moves on while the other one rests. A third track departs from both. -/
theorem ofTracks_metric_departing :
    [none, some 3, some 4, some 5].length = [none, some 3, some 3, some 3].length ∧
    [some 1, some 3, some 3, some 5].length = [none, some 3, some 3, some 3].length ∧
    ∃ c near far,
      ofTracks [none, some 3, some 4, some 5] [none, some 3, some 3, some 3] = .ok c ∧
      ofTracks [none, some 3, some 3, some 3] [some 1, some 3, some 3, some 5] = .ok near ∧
      ofTracks [none, some 3, some 4, some 5] [some 1, some 3, some 3, some 5] = .ok far ∧
      c.firstMismatch = some 2 ∧ c.describe = "mismatches=2/4 (first at frame 2)" ∧
      far.mismatches ≤ c.mismatches + near.mismatches := by
  refine ⟨rfl, rfl, ?_⟩
  obtain ⟨c, hc, -, -, -, -, -, -, -, -, hdescribe, -, htriangle⟩ :=
    (ofTracks_metric [none, some 3, some 4, some 5] [none, some 3, some 3, some 3]).2 rfl
  obtain ⟨near, far, hnear, hfar, hle⟩ := htriangle [some 1, some 3, some 3, some 5] rfl
  obtain rfl : ⟨some 2, 2, 4⟩ = c := Except.ok.inj hc
  exact ⟨_, near, far, hc, hnear, hfar, rfl, hdescribe 2 rfl, hle⟩

end Comparison
end EchoDelay
