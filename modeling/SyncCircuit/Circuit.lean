import SyncCircuit.Program.Basic

/-!
A circuit ready for simulation: a description whose input traces all have one length, and a trace
for each output, without values until the circuit has been simulated.
-/

namespace SyncCircuit

structure Circuit where
  name : Name
  inputs : List Name
  outputs : List Name
  latches : List Name
  definitions : Definitions
  updates : List Update
  stimuli : List Trace
  /-- The traces of the outputs in the last successful simulation. -/
  recorded : List Trace
  length : Nat
  length_eq : ∀ t ∈ stimuli, t.length = length

namespace Circuit

/-- The number of cycles is the length of the first trace, and no trace must have another. -/
def ofProgram (p : Program) : Except Fault Circuit :=
  let length := (p.stimuli.head?.map Trace.length).getD 0
  match h : p.stimuli.find? (·.length ≠ length) with
  | some t => .error (.unequalLengths t.signal length t.length)
  | none => .ok {
      name := p.name
      inputs := p.inputs
      outputs := p.outputs
      latches := p.latches
      definitions := .ofList p.definitions
      updates := p.updates
      stimuli := p.stimuli
      recorded := p.outputs.map (Trace.unset · length)
      length := length
      length_eq := by simpa using h }

/-- The trace that drives a signal: the first of its name. -/
def stimulus? (c : Circuit) (x : Name) : Option Trace := c.stimuli.find? (·.signal = x)

def unsetOutputs (c : Circuit) : List Trace := c.outputs.map (Trace.unset · c.length)

end Circuit

end SyncCircuit
