import EchoDelay.Proofs.Hamming
import EchoDelay.Proofs.Run
import Mathlib.Data.List.Forall2
import Mathlib.Data.Nat.Bitwise

/-!
# Relabelled bins

An estimator looks at spectra through bit counts and distances only, and these do not depend on
which bin is which. If the bins of every spectrum are relabelled by one permutation, the spectra it
keeps are relabelled too, and nothing else changes.
-/
namespace EchoDelay
namespace Spectrum

/-- Bin `i` of the relabelled spectrum is bin `σ i` of the given one. -/
def relabel (σ : Equiv.Perm (Fin bins)) (spectrum : Spectrum) : Spectrum :=
  UInt32.ofNat (Nat.ofBits fun i => spectrum.bin (σ i))

variable (σ : Equiv.Perm (Fin bins))

@[simp] theorem bin_relabel (spectrum : Spectrum) (i : Fin bins) :
    (spectrum.relabel σ).bin i = spectrum.bin (σ i) := by
  have hfits : Nat.ofBits (fun i => spectrum.bin (σ i)) < 2 ^ 32 := Nat.ofBits_lt_two_pow _
  rw [bin, isSet, relabel, UInt32.toNat_ofNat', Nat.mod_eq_of_lt hfits]
  exact Nat.testBit_ofBits_lt _ i i.isLt

@[simp] theorem relabel_zero : relabel σ 0 = 0 := by
  apply eq_of_bin
  intro i
  rw [bin_relabel, bin_zero, bin_zero]

theorem relabel_xor (a b : Spectrum) : relabel σ (a ^^^ b) = a.relabel σ ^^^ b.relabel σ := by
  apply eq_of_bin
  intro i
  rw [bin_xor, bin_relabel, bin_relabel, bin_relabel, bin_xor]

@[simp] theorem bitCount_relabel (spectrum : Spectrum) :
    (spectrum.relabel σ).bitCount = spectrum.bitCount := by
  rw [bitCount_eq_card, bitCount_eq_card]
  apply Finset.card_equiv σ
  intro i
  simp

@[simp] theorem distance_relabel (a b : Spectrum) :
    (a.relabel σ).distance (b.relabel σ) = a.distance b := by
  rw [distance, distance, ← relabel_xor, bitCount_relabel]

theorem compareRows_relabel (spectrum : Spectrum) (rows : List Spectrum) (counts : List Nat) :
    (spectrum.relabel σ).compareRows (rows.map (relabel σ)) counts =
      spectrum.compareRows rows counts := by
  rw [compareRows, compareRows, List.length_map, List.map_map]
  congr 3
  ext row
  exact distance_relabel σ spectrum row

end Spectrum

namespace History

variable {α β : Type} (f : α → β)

def map (h : History α) : History β := ⟨f h.newest, h.older.map f⟩

@[simp] theorem slots_map (h : History α) : (h.map f).slots = h.slots.map f := rfl

@[simp] theorem size_map (h : History α) : (h.map f).size = h.size := by
  rw [size, slots_map, List.length_map, size]

theorem map_push (h : History α) (value : α) : (h.push value).map f = (h.map f).push (f value) := by
  rw [map, push, push, slots_map, List.map_dropLast]

theorem oldest_map (h : History α) : (h.map f).oldest = f h.oldest := by
  simp only [oldest, slots_map, List.getLast_map]

theorem map_fill (h : History α) (value : α) : (h.fill value).map f = (h.map f).fill (f value) := by
  simp [map, fill, List.map_const', Function.comp_def]

theorem map_filled (value : α) (n : Nat) (hn : 0 < n) :
    (filled value n hn).map f = filled (f value) n hn := by
  rw [map, filled, filled, List.map_replicate]

end History

variable (σ : Equiv.Perm (Fin Spectrum.bins))

def Frame.relabel (frame : Frame) : Frame := ⟨frame.far.relabel σ, frame.near.relabel σ⟩

def Command.relabel : Command → Command
  | .frame heard => .frame (heard.relabel σ)
  | .reset => .reset

namespace Estimator

/-- The estimator whose histories hold the relabelled spectra. -/
def relabel (e : Estimator) : Estimator :=
  { e with
    farHistory := e.farHistory.map (Spectrum.relabel σ)
    nearHistory := e.nearHistory.map (Spectrum.relabel σ) }

end Estimator

def Outcome.relabel (o : Outcome) : Outcome := { o with estimator := o.estimator.relabel σ }

namespace Estimator

theorem relabel_fresh {d : Dimensions} (ha : d.Accepted) : (fresh d ha).relabel σ = fresh d ha := by
  simp only [relabel, fresh, silent, History.map_filled, Spectrum.relabel_zero]

theorem relabel_reset (e : Estimator) : (e.relabel σ).reset = e.reset.relabel σ := by
  simp only [relabel, reset, History.map_fill, Spectrum.relabel_zero]

/-- The comparison and the counts see no difference. -/
theorem listen_relabel (e : Estimator) (frame : Frame) :
    (e.relabel σ).listen (frame.relabel σ) = relabel σ <$> e.listen frame := by
  by_cases hdelayed : 1 < e.nearHistory.size
  · simp only [listen, relabel, Frame.relabel, History.size_map, hdelayed, if_true,
      ← History.map_push, History.oldest_map, History.slots_map, Spectrum.compareRows_relabel,
      Spectrum.bitCount_relabel, map_bind, map_pure]
  · simp only [listen, relabel, Frame.relabel, History.size_map, hdelayed, if_false,
      ← History.map_push, History.slots_map, Spectrum.compareRows_relabel,
      Spectrum.bitCount_relabel, map_bind, map_pure]

theorem consider_relabel (e : Estimator) (candidate : Nat) (mean : Q9) :
    (e.relabel σ).consider candidate mean = (e.consider candidate mean).relabel σ := by
  by_cases haccepted : e.thresholds.trusts mean ∨ e.thresholds.improvedBy mean
  · rw [consider, consider, if_pos haccepted]
    exact if_pos haccepted
  · rw [consider, consider, if_neg haccepted]
    exact if_neg haccepted

/-- An assessment does not look at spectra. -/
theorem assess_relabel (e : Estimator) :
    (e.relabel σ).assess = Outcome.relabel σ <$> e.assess := by
  have hmeans : (e.relabel σ).means = e.means := rfl
  have hthresholds : (e.relabel σ).thresholds = e.thresholds := rfl
  simp only [assess, hmeans, hthresholds, map_bind]
  congr 1
  funext thresholds
  cases (Valley.ofMeans e.means).candidate with
  | none => rfl
  | some candidate =>
    simp only [map_bind]
    congr 1
    funext distinct
    cases distinct with
    | false => rfl
    | true =>
      exact congrArg Except.ok
        (consider_relabel σ { e with thresholds := thresholds.drift } candidate _)

theorem process_relabel (e : Estimator) (frame : Frame) :
    (e.relabel σ).process (frame.relabel σ) = Outcome.relabel σ <$> e.process frame := by
  rw [process, process, listen_relabel, map_bind, bind_map_left]
  simp only [assess_relabel]

theorem step_relabel (e : Estimator) (command : Command) :
    (e.relabel σ).step (command.relabel σ) = Outcome.relabel σ <$> e.step command := by
  cases command with
  | frame frame => exact process_relabel σ e frame
  | reset =>
    rw [Command.relabel, step, step, relabel_reset]
    rfl

/-- From any estimator, whether or not the run faults. -/
theorem run_relabel (e : Estimator) (commands : List Command) :
    (e.relabel σ).run (commands.map (Command.relabel σ)) =
      List.map (Outcome.relabel σ) <$> e.run commands := by
  induction commands generalizing e with
  | nil => rfl
  | cons command commands ih =>
    rw [List.map_cons, run, run, step_relabel, map_bind, bind_map_left]
    congr 1
    funext o
    rw [map_bind]
    change (o.estimator.relabel σ).run _ >>= _ = _
    rw [ih, bind_map_left]
    rfl

end Estimator

/-- The outcomes agree in all that can be read off them but the spectra that are kept. -/
structure Outcome.Alike (o o' : Outcome) : Prop where
  delay_eq : o.delay = o'.delay
  events_eq : o.events = o'.events
  distances_eq : o.estimator.distances = o'.estimator.distances
  farBitCounts_eq : o.estimator.farBitCounts = o'.estimator.farBitCounts
  means_eq : o.estimator.means = o'.estimator.means
  thresholds_eq : o.estimator.thresholds = o'.estimator.thresholds

theorem Outcome.alike_relabel (o : Outcome) : o.Alike (o.relabel σ) :=
  ⟨rfl, rfl, rfl, rfl, rfl, rfl⟩

namespace Estimator

/-- No permutation of the bins shows in what an estimator returns, reports or derives. -/
theorem run_relabel_alike {d : Dimensions} {e : Estimator} (he : (create d).value = .ok e)
    (σ : Equiv.Perm (Fin Spectrum.bins)) (commands : List Command) :
    ∃ outcomes relabelled, e.run commands = .ok outcomes ∧
      e.run (commands.map (Command.relabel σ)) = .ok relabelled ∧
      outcomes.length = commands.length ∧ List.Forall₂ Outcome.Alike outcomes relabelled := by
  obtain ⟨ha, rfl⟩ := create_value_eq he
  obtain ⟨outcomes, hrun, hcourse⟩ := (sound_fresh ha).run_eq ha commands
  have hrelabelled := run_relabel σ (fresh d ha) commands
  rw [relabel_fresh, hrun] at hrelabelled
  refine ⟨outcomes, outcomes.map (Outcome.relabel σ), hrun, hrelabelled, hcourse.length_eq, ?_⟩
  rw [List.forall₂_map_right_iff]
  exact List.forall₂_same.mpr fun o _ => o.alike_relabel σ

/-- The bins in reverse order: other spectra, the same delay. -/
theorem run_relabel_alike_reversed :
    ∃ e outcomes relabelled, (create ⟨1, 1⟩).value = .ok e ∧
      e.run (.frame ⟨1, 1⟩ :: .reset ::
        (List.replicate 20 [⟨0x7FFFFFFF, 0⟩, ⟨0, 0x7FFFFFFF⟩]).flatten.map .frame) =
        .ok outcomes ∧
      e.run ((.frame ⟨1, 1⟩ :: .reset ::
        (List.replicate 20 [⟨0x7FFFFFFF, 0⟩, ⟨0, 0x7FFFFFFF⟩]).flatten.map .frame).map
        (Command.relabel Fin.revPerm)) = .ok relabelled ∧
      (e.after outcomes).nearHistory.slots = [0x7FFFFFFF, 0] ∧
      (e.after relabelled).nearHistory.slots = [0xFFFFFFFE, 0] ∧
      (e.after outcomes).lastDelay = some 0 ∧
      List.Forall₂ Outcome.Alike outcomes relabelled := by
  have he : (create ⟨1, 1⟩).value = .ok (fresh ⟨1, 1⟩ (by decide)) := by
    rw [create_fresh]
  obtain ⟨outcomes, relabelled, hrun, hrelabelled, -, halike⟩ :=
    run_relabel_alike he Fin.revPerm (.frame ⟨1, 1⟩ :: .reset ::
      (List.replicate 20 [⟨0x7FFFFFFF, 0⟩, ⟨0, 0x7FFFFFFF⟩]).flatten.map .frame)
  have houtcomes := outcomes_eq hrun
  refine ⟨_, outcomes, relabelled, he, hrun, hrelabelled, ?_, ?_, ?_, halike⟩
  · rw [houtcomes]
    decide +kernel
  · rw [outcomes_eq hrelabelled]
    decide +kernel
  · rw [houtcomes]
    decide +kernel

end Estimator
end EchoDelay
