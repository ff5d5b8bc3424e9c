import SyncCircuit.Proofs.Evaluation
import SyncCircuit.Proofs.Outcome
import SyncCircuit.Simulation

/-!
Recording a value sets one cell of a trace to what the signal carries and leaves the others as they
are. A trace can also be given by a function from cycles to cells.
-/

namespace SyncCircuit

namespace Trace

theorem record_eq_ok {env : Environment} {t : ℕ} {tr tr' : Trace} :
    tr.record env t = .ok tr' ↔ ∃ b, env.values[tr.signal]? = some b ∧ t < tr.length ∧
      tr' = { tr with cells := tr.cells.set t (some b) } := by
  unfold record
  cases h : env.get tr.signal with
  | error f =>
    have hn := (Environment.get_eq_error.mp h).1
    simp [hn]
  | ok b =>
    rw [Environment.get_eq_ok.mp h]
    by_cases ht : t < tr.length
    · simp [set?, ht, eq_comm]
    · simp [set?, ht]

theorem record_fault {env : Environment} {t : ℕ} {tr : Trace} (ht : t < tr.length) {f : Fault}
    (hf : tr.record env t = .error f) : f = .unboundSignal tr.signal := by
  unfold record at hf
  split at hf
  · next e he =>
    cases hf
    exact (Environment.get_eq_error.mp he).2
  · simp [set?, ht] at hf

theorem exists_record {env : Environment} {t : ℕ} {tr : Trace} (hb : env.binds tr.signal)
    (ht : t < tr.length) : ∃ tr', tr.record env t = .ok tr' := by
  obtain ⟨b, hb⟩ := Environment.binds_iff.mp hb
  exact ⟨_, record_eq_ok.mpr ⟨b, hb, ht, rfl⟩⟩

structure SameBut (t : ℕ) (tr tr' : Trace) : Prop where
  signal : tr'.signal = tr.signal
  length : tr'.length = tr.length
  cells : ∀ i, i ≠ t → tr'.get? i = tr.get? i

theorem SameBut.refl (t : ℕ) (tr : Trace) : SameBut t tr tr := ⟨rfl, rfl, fun _ _ => rfl⟩

theorem SameBut.trans {t : ℕ} {a b c : Trace} (h : SameBut t a b) (k : SameBut t b c) :
    SameBut t a c :=
  ⟨k.signal.trans h.signal, k.length.trans h.length,
    fun i hi => (k.cells i hi).trans (h.cells i hi)⟩

theorem sameBut_of_record {env : Environment} {t : ℕ} {tr tr' : Trace}
    (h : tr.record env t = .ok tr') : SameBut t tr tr' := by
  obtain ⟨b, _, _, rfl⟩ := record_eq_ok.mp h
  refine ⟨rfl, by simp [length], fun i hi => ?_⟩
  simp only [get?, List.getElem?_set_ne (Ne.symm hi)]

theorem get?_of_record {env : Environment} {t : ℕ} {tr tr' : Trace}
    (h : tr.record env t = .ok tr') : tr'.get? t = env.values[tr.signal]? := by
  obtain ⟨b, hb, ht, rfl⟩ := record_eq_ok.mp h
  rw [hb]
  simp only [get?, List.getElem?_set_self (show t < tr.cells.length from ht), Option.join_some]

@[simp] theorem unset_signal (x : Name) (n : ℕ) : (unset x n).signal = x := rfl

@[simp] theorem unset_length (x : Name) (n : ℕ) : (unset x n).length = n := by
  simp [unset, length]

@[simp] theorem unset_get? (x : Name) (n i : ℕ) : (unset x n).get? i = none := by
  simp only [get?, unset, List.getElem?_replicate]
  split <;> rfl

theorem toList_bits_ofValues (x : Name) (values : List Bool) :
    (ofValues x values).bits.toList = values.map digit := by
  rw [toList_bits, ofValues, List.map_map]
  rfl

/-- The trace whose cells are the values of a function at the cycles below `n`. -/
def tabulate (x : Name) (n : ℕ) (cell : ℕ → Option Bool) : Trace := ⟨x, (List.range n).map cell⟩

theorem eq_tabulate {tr : Trace} {n : ℕ} {cell : ℕ → Option Bool} (hn : tr.length = n)
    (h : ∀ i < n, tr.get? i = cell i) : tr = tabulate tr.signal n cell := by
  subst hn
  have hcells : tr.cells = (List.range tr.length).map cell := by
    refine List.ext_getElem (by simp [length]) fun i hi _ => ?_
    have hc := h i hi
    simp only [get?, List.getElem?_eq_getElem hi, Option.join_some] at hc
    simp [hc]
  rw [tabulate, ← hcells]

theorem tabulate_of_values {x : Name} {n : ℕ} {cell : ℕ → Option Bool} {value : ℕ → Bool}
    (h : ∀ i < n, cell i = some (value i)) :
    tabulate x n cell = ofValues x ((List.range n).map value) := by
  have hcells : (List.range n).map cell = (List.range n).map (some ∘ value) :=
    List.map_congr_left fun i hi => h i (List.mem_range.mp hi)
  rw [tabulate, ofValues, List.map_map, hcells]

structure Complete (tr : Trace) : Prop where
  cells : tr.cells ≠ []
  set : ∀ cell ∈ tr.cells, cell.isSome

theorem Complete.length_pos {tr : Trace} (h : tr.Complete) : 0 < tr.length :=
  List.length_pos_iff.mpr h.cells

theorem complete_ofValues {x : Name} {values : List Bool} (h : values ≠ []) :
    (ofValues x values).Complete where
  cells := mt List.map_eq_nil_iff.mp h
  set cell hcell := by
    obtain ⟨b, _, rfl⟩ := List.mem_map.mp hcell
    rfl

theorem eq_ofValues {tr : Trace} (hset : ∀ cell ∈ tr.cells, cell.isSome) :
    tr = ofValues tr.signal (tr.cells.map (·.getD false)) := by
  have hcells : tr.cells.map (fun cell => some (cell.getD false)) = tr.cells := by
    refine (List.map_congr_left fun cell hcell => ?_).trans (List.map_id tr.cells)
    obtain ⟨b, rfl⟩ := Option.isSome_iff_exists.mp (hset cell hcell)
    rfl
  unfold ofValues
  rw [List.map_map, Function.comp_def, hcells]

end Trace

end SyncCircuit
