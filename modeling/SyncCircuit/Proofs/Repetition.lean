import SyncCircuit.Proofs.Truncation

/-!
One simulation after the other. What a circuit has recorded is not read in a simulation, and is
replaced as a whole at the end of one that succeeds.
-/

namespace SyncCircuit

open Circuit (Shortens)
open Simulation (start clocks shorten)

namespace Simulation

variable {n : ℕ} {c d : Circuit}

theorem clocks_shorten (h : Shortens n c d) {m : ℕ} (hm : m ≤ n) :
    clocks m (start d) = (clocks m (start c)).map (shorten n d) := by
  induction m with
  | zero => exact congrArg Outcome.done (start_shorten h)
  | succ m ih =>
    rw [clocks_succ_last, clocks_succ_last, ih (by omega)]
    refine Outcome.map_andThen fun s hs => ?_
    obtain ⟨-, rfl⟩ := clocks_eq_done_iff.mp hs
    rw [← afterClocks_shorten h (by omega)]
    exact clock_afterClocks_shorten h hm

end Simulation

namespace Circuit

theorem simulate_records {c c' : Circuit} (h : c.simulate = .done c') :
    c' = { c with recorded := c'.recorded } ∧ c'.recorded.map Trace.signal = c.outputs ∧
      ∀ tr ∈ c'.recorded, tr.length = c.length ∧ ∀ t < c.length, (tr.get? t).isSome := by
  obtain ⟨s, hs, hp, rfl⟩ := simulate_eq_done h
  refine ⟨rfl, hs.coherent.names, fun tr htr => ⟨hs.coherent.lengths tr htr, ?_⟩⟩
  exact hs.coherent.done hp tr htr

/-- What was recorded before does not count as a part of the design. -/
theorem shortens_recorded (c : Circuit) (ts : List Trace) :
    Shortens (c.length + 1) c { c with recorded := ts } where
  inputs := rfl
  outputs := rfl
  latches := rfl
  definitions := rfl
  updates := rfl
  length := (min_eq_right (Nat.le_succ _)).symm
  driven _ _ _ _ := rfl

theorem simulate_recorded (c : Circuit) (ts : List Trace) :
    (∀ c', c.simulate = .done c' → ({ c with recorded := ts } : Circuit).simulate = .done c') ∧
      ∀ f, c.simulate.fault = some f → ({ c with recorded := ts } : Circuit).simulate =
        ⟨{ c with recorded := ts }, some f⟩ := by
  have hrun : (start { c with recorded := ts }).run =
      (start c).run.map (shorten (c.length + 1) { c with recorded := ts }) :=
    Simulation.clocks_shorten (shortens_recorded c ts) le_rfl
  constructor
  · intro c' h
    obtain ⟨s, hs, rfl⟩ := simulate_eq_done_iff.mp h
    have hclocked : Simulation.Clocked c s := Simulation.clocked_of_clocks .start hs
    -- There are no cells to cut off.
    have houtputs : s.outputs.map (Trace.cut (c.length + 1)) = s.outputs := by
      refine (List.map_congr_left fun tr htr => ?_).trans (List.map_id _)
      exact Trace.cut_of_length_le (by rw [hclocked.coherent.lengths tr htr]; omega)
    rw [hs] at hrun
    refine simulate_eq_done_iff.mpr ⟨_, hrun, ?_⟩
    exact congrArg (fun us => ({ c with recorded := us } : Circuit)) houtputs.symm
  · intro f h
    exact simulate_of_fault (by rw [hrun, Outcome.map_fault, simulate_fault.mp h])

theorem simulate_again (c : Circuit) : c.simulate.state.simulate = c.simulate := by
  cases hf : c.simulate.fault with
  | some f => rw [simulate_state_of_fault hf]
  | none =>
    have h := Outcome.eq_done_of_fault hf
    have hr := (simulate_recorded c c.simulate.state.recorded).1 _ h
    rw [← (simulate_records h).1] at hr
    exact hr.trans h.symm

/-- A simulation that fails leaves the circuit as it is. One that succeeds records each output in
every cycle, and changes nothing else. To simulate the circuit once more, whatever it has recorded,
comes to the same. -/
theorem simulate_repeats (c : Circuit) :
    (∀ f, c.simulate.fault = some f → c.simulate.state = c) ∧
      (∀ c', c.simulate = .done c' → c' = { c with recorded := c'.recorded } ∧
        c'.recorded.map Trace.signal = c.outputs ∧
        ∀ tr ∈ c'.recorded, tr.length = c.length ∧ ∀ t < c.length, (tr.get? t).isSome) ∧
      (∀ ts, (∀ c', c.simulate = .done c' →
          ({ c with recorded := ts } : Circuit).simulate = .done c') ∧
        ∀ f, c.simulate.fault = some f →
          ({ c with recorded := ts } : Circuit).simulate.fault = some f) ∧
      ∀ k, ((fun d : Circuit => d.simulate.state)^[k] c).simulate = c.simulate := by
  refine ⟨fun _ => simulate_state_of_fault, fun _ => simulate_records, fun ts => ?_, fun k => ?_⟩
  · obtain ⟨hdone, hfault⟩ := simulate_recorded c ts
    exact ⟨hdone, fun f h => by rw [hfault f h]⟩
  · induction k with
    | zero => rfl
    | succ k ih => rw [Function.iterate_succ_apply', simulate_again, ih]

end Circuit

end SyncCircuit
