import Mathlib.Data.List.ReduceOption
import SyncCircuit.Proofs.Clocked

/-!
A run as a loop of clocks, and where it is resumed. The loop goes on until the simulation is done or
a clock fails. It evaluates the cycles one after the other, and it comes to the same end if some of
its clocks have been done by hand. An evaluation that never ends counts as one that fails.
-/

namespace SyncCircuit

namespace Simulation

variable {c : Circuit} {s r : Simulation} {us vs : List (Option ℕ)} {o o' : Outcome Simulation}

def elapsed (s : Simulation) : ℕ :=
  match s.phase with
  | .uninitialized => 0
  | .cycle t => t + 1
  | .done => s.circuit.length

def upcoming (s : Simulation) : Option ℕ :=
  if s.elapsed < s.circuit.length then some s.elapsed else none

/-- The part of a cycle that comes before the updates. -/
def opened (t : ℕ) (s : Simulation) : Outcome Simulation :=
  if t = 0 then (s.cleared.drive 0).andThen fun s => .done s.clear
  else (s.drive t).andThen fun s => s.pass.mapFault (.during t)

/-- The clocks up to the end of a simulation or the first fault, with the cycles they evaluate. -/
inductive Loop : Simulation → List (Option ℕ) → Outcome Simulation → Prop where
  | done {s : Simulation} : s.phase = .done → Loop s [] (.done s)
  | fault {s : Simulation} {f : Fault} : s.phase ≠ .done → s.clock.fault = some f →
      Loop s [s.upcoming] s.clock
  | clock {s r : Simulation} {us : List (Option ℕ)} {o : Outcome Simulation} : s.phase ≠ .done →
      s.clock = .done r → Loop r us o → Loop s (s.upcoming :: us) o

theorem Loop.unique (h : Loop s us o) (h' : Loop s vs o') : us = vs ∧ o = o' := by
  induction h generalizing vs o' with
  | done hp =>
    cases h' with
    | done => exact ⟨rfl, rfl⟩
    | fault hne => exact absurd hp hne
    | clock hne => exact absurd hp hne
  | fault hne hf =>
    cases h' with
    | done hp => exact absurd hp hne
    | fault => exact ⟨rfl, rfl⟩
    | clock _ hs =>
      rw [hs] at hf
      cases hf
  | clock hne hs _ ih =>
    cases h' with
    | done hp => exact absurd hp hne
    | fault _ hf =>
      rw [hs] at hf
      cases hf
    | clock _ hs' hl =>
      obtain rfl := Outcome.done_inj.mp (hs.symm.trans hs')
      obtain ⟨rfl, rfl⟩ := ih hl
      exact ⟨rfl, rfl⟩

def evaluated (c : Circuit) (k : ℕ) : List ℕ :=
  ((List.range k).map fun j => (afterClocks c j).upcoming).reduceOption

end Simulation

end SyncCircuit
