import EchoDelay.Estimator.Basic
import EchoDelay.Estimator.Valley
import EchoDelay.Proofs.Smoothing
import Mathlib.Data.List.Induction

/-!
# The landscape of the means

The scan over the means finds their minimum, the first candidate that attains it and their maximum.
Its two starting values never show, since every mean lies strictly between them.
-/
namespace EchoDelay
namespace Valley

/-- The valley is that of these raw means. -/
structure Spans (v : Valley) (means : List Int) : Prop where
  best_eq : means.min? = some v.best.raw
  worst_eq : means.max? = some v.worst.raw
  candidate_eq : v.candidate = some (means.idxOf v.best.raw)

@[simp] theorem unseen_best : unseen.best.raw = 16384 := by decide
@[simp] theorem unseen_worst : unseen.worst.raw = 0 := rfl
@[simp] theorem margin_raw : margin.raw = 1024 := by decide

theorem ofMeans_concat (means : List Q9) (mean : Q9) :
    ofMeans (means ++ [mean]) = (ofMeans means).extend mean means.length := by
  simp [ofMeans, List.zipIdx_append]

theorem extend_unseen {mean : Q9} (h : MeanInRange mean.raw) :
    unseen.extend mean 0 = ⟨some 0, mean, mean⟩ := by
  obtain ⟨hl, hg⟩ := h
  have hbest : mean < unseen.best := by
    rw [Q9.lt_iff, unseen_best]
    omega
  have hworst : unseen.worst < mean := by
    rw [Q9.lt_iff, unseen_worst]
    omega
  simp [extend, hbest, hworst]

theorem min?_concat {means : List Int} {best : Int} (h : means.min? = some best) (mean : Int) :
    (means ++ [mean]).min? = some (min best mean) := by
  cases means with
  | nil => simp at h
  | cons first means =>
    rw [List.min?_cons', Option.some.injEq] at h
    rw [List.cons_append, List.min?_cons', List.foldl_append, h]
    rfl

theorem max?_concat {means : List Int} {worst : Int} (h : means.max? = some worst) (mean : Int) :
    (means ++ [mean]).max? = some (max worst mean) := by
  cases means with
  | nil => simp at h
  | cons first means =>
    rw [List.max?_cons', Option.some.injEq] at h
    rw [List.cons_append, List.max?_cons', List.foldl_append, h]
    rfl

theorem extend_best_raw (v : Valley) (mean : Q9) (index : Nat) :
    (v.extend mean index).best.raw = min v.best.raw mean.raw := by
  change (if mean < v.best then mean else v.best).raw = _
  split <;> rename_i h <;> rw [Q9.lt_iff] at h <;> omega

theorem extend_worst_raw (v : Valley) (mean : Q9) (index : Nat) :
    (v.extend mean index).worst.raw = max v.worst.raw mean.raw := by
  change (if v.worst < mean then mean else v.worst).raw = _
  split <;> rename_i h <;> rw [Q9.lt_iff] at h <;> omega

theorem Spans.extend {v : Valley} {means : List Int} (h : v.Spans means) (mean : Q9) :
    (v.extend mean means.length).Spans (means ++ [mean.raw]) where
  best_eq := by rw [extend_best_raw, min?_concat h.best_eq]
  worst_eq := by rw [extend_worst_raw, max?_concat h.worst_eq]
  candidate_eq := by
    obtain ⟨hmem, hle⟩ := List.min?_eq_some_iff.mp h.best_eq
    by_cases hlt : mean < v.best
    · -- a new minimum does not occur earlier
      have hnew : mean.raw ∉ means := by
        intro hm
        have := hle _ hm
        rw [Q9.lt_iff] at hlt
        omega
      simp only [Valley.extend, if_pos hlt]
      rw [List.idxOf_append, if_neg hnew]
      simp
    · simp only [Valley.extend, if_neg hlt]
      rw [List.idxOf_append, if_pos hmem, h.candidate_eq]

theorem ofMeans_spans (means : List Q9) (hne : means ≠ [])
    (h : ∀ mean ∈ means, MeanInRange mean.raw) : (ofMeans means).Spans (means.map Q9.raw) := by
  induction means using List.reverseRecOn with
  | nil => exact absurd rfl hne
  | append_singleton means mean ih =>
    rw [ofMeans_concat, List.map_append]
    by_cases hnil : means = []
    · subst hnil
      have hspans : Spans ⟨some 0, mean, mean⟩ [mean.raw] := ⟨rfl, rfl, by simp⟩
      change (unseen.extend mean 0).Spans [mean.raw]
      rw [extend_unseen (h mean (by simp))]
      exact hspans
    · have := (ih hnil fun m hm => h m (List.mem_append_left _ hm)).extend mean
      rwa [List.length_map] at this

end Valley

namespace Estimator

/-- The raw means by candidate. -/
def rawMeans (e : Estimator) : List Int := e.means.map Q9.raw

def lowest (e : Estimator) : Int := e.rawMeans.min?.getD 0
def highest (e : Estimator) : Int := e.rawMeans.max?.getD 0

/-- The first candidate with the lowest mean. -/
def leader (e : Estimator) : Nat := e.rawMeans.idxOf e.lowest

/-- The means form a valley: the highest exceeds the lowest by more than 2.0. -/
def Distinct (e : Estimator) : Prop := e.lowest + 1024 < e.highest

instance (e : Estimator) : Decidable e.Distinct :=
  inferInstanceAs (Decidable (e.lowest + 1024 < e.highest))

@[simp] theorem rawMeans_length (e : Estimator) : e.rawMeans.length = e.means.length :=
  List.length_map _

section Congruence

variable {a b : Estimator} (h : a.rawMeans = b.rawMeans)
include h

theorem lowest_congr : a.lowest = b.lowest := by rw [lowest, lowest, h]

theorem highest_congr : a.highest = b.highest := by rw [highest, highest, h]

theorem leader_congr : a.leader = b.leader := by rw [leader, leader, lowest_congr h, h]

theorem distinct_congr : a.Distinct ↔ b.Distinct := by
  rw [Distinct, Distinct, lowest_congr h, highest_congr h]

end Congruence

variable {e : Estimator}

theorem min?_rawMeans (h : e.rawMeans ≠ []) : e.rawMeans.min? = some e.lowest := by
  obtain ⟨v, hv⟩ := Option.isSome_iff_exists.mp (List.isSome_min?_of_ne_nil h)
  rw [lowest, hv, Option.getD_some]

theorem max?_rawMeans (h : e.rawMeans ≠ []) : e.rawMeans.max? = some e.highest := by
  obtain ⟨v, hv⟩ := Option.isSome_iff_exists.mp (List.isSome_max?_of_ne_nil h)
  rw [highest, hv, Option.getD_some]

theorem lowest_mem (h : e.rawMeans ≠ []) : e.lowest ∈ e.rawMeans :=
  (List.min?_eq_some_iff.mp (min?_rawMeans h)).1

theorem lowest_le {v : Int} (h : v ∈ e.rawMeans) : e.lowest ≤ v :=
  (List.min?_eq_some_iff.mp (min?_rawMeans (List.ne_nil_of_mem h))).2 v h

theorem highest_mem (h : e.rawMeans ≠ []) : e.highest ∈ e.rawMeans :=
  (List.max?_eq_some_iff.mp (max?_rawMeans h)).1

theorem le_highest {v : Int} (h : v ∈ e.rawMeans) : v ≤ e.highest :=
  (List.max?_eq_some_iff.mp (max?_rawMeans (List.ne_nil_of_mem h))).2 v h

theorem leader_lt (h : e.rawMeans ≠ []) : e.leader < e.rawMeans.length :=
  List.idxOf_lt_length_of_mem (lowest_mem h)

theorem lowest_eq_of_le {v : Int} (h : v ∈ e.rawMeans) (hle : ∀ w ∈ e.rawMeans, v ≤ w) :
    e.lowest = v :=
  Int.le_antisymm (lowest_le h) (hle _ (lowest_mem (List.ne_nil_of_mem h)))

theorem rawMeans_leader (h : e.rawMeans ≠ []) : e.rawMeans[e.leader]? = some e.lowest := by
  rw [List.getElem?_eq_getElem (leader_lt h)]
  exact congrArg some (List.getElem_idxOf _)

/-- The leader is the first with its mean. -/
theorem lowest_lt_of_lt_leader {i : Nat} {v : Int} (hi : i < e.leader)
    (hv : e.rawMeans[i]? = some v) : e.lowest < v := by
  obtain ⟨hlt, rfl⟩ := List.getElem?_eq_some_iff.mp hv
  have hne : e.rawMeans[i] ≠ e.lowest := by simpa using List.not_of_lt_findIdx hi
  have hle := lowest_le (List.getElem_mem hlt)
  omega

/-- A candidate whose mean lies strictly below all others leads. -/
theorem leader_eq {candidate : Nat} {v : Int} (hc : e.rawMeans[candidate]? = some v)
    (hlt : ∀ i w, i ≠ candidate → e.rawMeans[i]? = some w → v < w) :
    e.lowest = v ∧ e.leader = candidate := by
  have hv : v ∈ e.rawMeans := List.mem_of_getElem? hc
  have hat := rawMeans_leader (List.ne_nil_of_mem hv)
  by_cases hlead : e.leader = candidate
  · rw [hlead, hc, Option.some.injEq] at hat
    exact ⟨hat.symm, hlead⟩
  · have hhigh := hlt e.leader e.lowest hlead hat
    have hlow := lowest_le hv
    omega

/-- What the scan finds in means within their range. -/
theorem ofMeans_eq (hne : e.rawMeans ≠ []) (h : ∀ v ∈ e.rawMeans, MeanInRange v) :
    (Valley.ofMeans e.means).candidate = some e.leader ∧
      (Valley.ofMeans e.means).best.raw = e.lowest ∧
      (Valley.ofMeans e.means).worst.raw = e.highest := by
  have hspans := Valley.ofMeans_spans e.means (by rintro hnil; simp [rawMeans, hnil] at hne)
    fun mean hm => h mean.raw (List.mem_map_of_mem hm)
  have hbest : (Valley.ofMeans e.means).best.raw = e.lowest :=
    Option.some.inj (hspans.best_eq.symm.trans (min?_rawMeans hne))
  have hworst : (Valley.ofMeans e.means).worst.raw = e.highest :=
    Option.some.inj (hspans.worst_eq.symm.trans (max?_rawMeans hne))
  refine ⟨?_, hbest, hworst⟩
  rw [hspans.candidate_eq, hbest]
  rfl

end Estimator
end EchoDelay
