import EchoDelay.Proofs.Acceptance
import Mathlib.Data.Prod.Lex

/-!
# When a delay is given up

Once there is a delay there always is one. It is only given up for the leader of a valley, which
comes before every other candidate by mean and then by index, and for which one of the two
thresholds vouches after the frame.
-/
namespace EchoDelay.Estimator

/-- The means and thresholds when the delay has gone from candidate `a`, with mean `old`, to
candidate `b`, with mean `new`. -/
structure Displaced (a b : Nat) (old new : Int) (e : Estimator) : Prop where
  old_eq : e.means[a]?.map Q9.raw = some old
  new_eq : e.means[b]?.map Q9.raw = some new
  before_old : toLex (new, b) < toLex (old, a)
  before_others : ∀ (i : Nat) v, i ≠ b → e.means[i]?.map Q9.raw = some v →
    toLex (new, b) < toLex (v, i)
  margin_lt : new + 1024 < e.highest
  level_le : e.thresholds.lastDelayProbability.raw ≤ new
  vouched : new < e.thresholds.minimumProbability.raw ∨
    new = e.thresholds.lastDelayProbability.raw

variable {d : Dimensions} {e : Estimator} {o : Outcome}

/-- The leader comes first by mean and then by index. -/
theorem leader_lex_lt {i : Nat} {v : Int} (hi : i ≠ e.leader) (hv : e.rawMeans[i]? = some v) :
    toLex (e.lowest, e.leader) < toLex (v, i) := by
  rw [Prod.Lex.toLex_lt_toLex]
  rcases Nat.lt_or_gt_of_ne hi with hbefore | hafter
  · exact .inl (lowest_lt_of_lt_leader hbefore hv)
  · rcases Int.lt_or_eq_of_le (lowest_le (List.mem_of_getElem? hv)) with hlt | heq
    · exact .inl hlt
    · exact .inr ⟨heq, hafter⟩

namespace Decided

/-- A new delay is the leader of a valley, which is below the minimum probability or has anchored
the level. -/
theorem vouched (h : Decided e o) (hmoved : o.estimator.lastDelay ≠ e.lastDelay) :
    o.estimator.Distinct ∧
      (o.estimator.lowest < o.estimator.thresholds.minimumProbability.raw ∨
        o.estimator.lowest = o.estimator.thresholds.lastDelayProbability.raw) := by
  have hdelay := h.lastDelay_eq
  split at hdelay
  · rename_i haccepted
    refine ⟨haccepted.1, haccepted.2.imp_right fun himproved => ?_⟩
    rw [h.level_eq, if_pos ⟨haccepted.1, himproved⟩]
  · exact (hmoved hdelay).elim

theorem lastDelay_ne_none (h : Decided e o) (hknown : e.lastDelay ≠ none) :
    o.estimator.lastDelay ≠ none := by
  rw [h.lastDelay_eq]
  split
  · exact Option.some_ne_none _
  · exact hknown

theorem displaced (h : Decided e o) {a b : Nat} {old : Int}
    (hold : o.estimator.rawMeans[a]? = some old) (ha : e.lastDelay = some a)
    (hb : o.estimator.lastDelay = some b) (hba : b ≠ a) :
    Displaced a b old o.estimator.lowest o.estimator := by
  have hmoved : o.estimator.lastDelay ≠ e.lastDelay := by
    rw [ha, hb]
    exact fun heq => hba (Option.some.inj heq)
  obtain rfl : b = o.estimator.leader :=
    Option.some.inj (hb.symm.trans (h.lastDelay_of_ne hmoved))
  obtain ⟨hdistinct, hvouched⟩ := h.vouched hmoved
  have hleader := rawMeans_leader (List.ne_nil_of_mem (List.mem_of_getElem? hold))
  rw [rawMeans, List.getElem?_map] at hold hleader
  refine ⟨hold, hleader, ?_, ?_, hdistinct, h.level_le hdistinct, hvouched⟩
  · exact leader_lex_lt hba.symm (by rwa [rawMeans, List.getElem?_map])
  · intro i v hi hv
    exact leader_lex_lt hi (by rwa [rawMeans, List.getElem?_map])

end Decided

/-- A frame never takes a delay back, and replaces it only by a candidate that comes before it and
all others. -/
theorem process_displaces (h : Reachable d e) (frame : Frame) :
    ∃ o, e.process frame = .ok o ∧ o.delay = o.estimator.lastDelay ∧
      (e.lastDelay ≠ none → o.estimator.lastDelay ≠ none) ∧
      ∀ a b, e.lastDelay = some a → o.estimator.lastDelay = some b → b ≠ a →
        ∃ old new, Displaced a b old new o.estimator := by
  obtain ⟨o, hprocess, hprocessed, hsound⟩ := h.sound.process_eq h.accepted frame
  refine ⟨o, hprocess, hprocessed.delay_eq, hprocessed.lastDelay_ne_none, ?_⟩
  intro a b ha hb hba
  have hlt : a < o.estimator.rawMeans.length := by
    rw [hsound.rawMeans_length]
    exact h.sound.lastDelay_lt a ha
  exact ⟨_, _, hprocessed.displaced (List.getElem?_eq_getElem hlt) ha hb hba⟩

/-- Candidate 1 takes over as soon as its mean is more than 2.0 below that of candidate 0. -/
theorem process_displaces_margin :
    ∃ e o, Reachable ⟨2, 0⟩ e ∧ e.lastDelay = some 0 ∧ e.means.map Q9.raw = [10374, 9372] ∧
      e.process ⟨0, 0xFFFFFFFF⟩ = .ok o ∧ o.estimator.lastDelay = some 1 ∧
      o.estimator.means.map Q9.raw = [10374, 9299] ∧
      ∃ old new, Displaced 0 1 old new o.estimator := by
  obtain ⟨past, hpast, h⟩ := Reachable.of_fresh (d := ⟨2, 0⟩) (by decide)
    ((List.replicate 10 [⟨0xFFFFFFFF, 0xFFFFFFFF⟩, ⟨0, 0⟩]).flatten.map .frame ++
      (List.replicate 17 [⟨0xFFFFFFFF, 0⟩, ⟨0, 0xFFFFFFFF⟩]).flatten.map .frame ++
      [.frame ⟨0xFFFFFFFF, 0⟩])
  obtain ⟨o, hprocess, -, -, hdisplaces⟩ := process_displaces h ⟨0, 0xFFFFFFFF⟩
  have hbefore : ((fresh ⟨2, 0⟩ (by decide)).after past).lastDelay = some 0 ∧
      ((fresh ⟨2, 0⟩ (by decide)).after past).means.map Q9.raw = [10374, 9372] := by
    rw [outcomes_eq hpast]
    decide +kernel
  have hafter : (((fresh ⟨2, 0⟩ (by decide)).after past).process ⟨0, 0xFFFFFFFF⟩).toOption.map
      (fun o => (o.estimator.lastDelay, o.estimator.means.map Q9.raw)) =
        some (some 1, [10374, 9299]) := by
    rw [outcomes_eq hpast]
    decide +kernel
  rw [hprocess] at hafter
  obtain ⟨hmoved, hmeans⟩ := Prod.mk.inj (Option.some.inj hafter)
  exact ⟨_, o, h, hbefore.1, hbefore.2, hprocess, hmoved, hmeans,
    hdisplaces 0 1 hbefore.1 hmoved (by decide)⟩

end EchoDelay.Estimator
