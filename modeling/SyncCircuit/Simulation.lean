import SyncCircuit.Circuit
import SyncCircuit.Expr.Eval
import SyncCircuit.Outcome

/-!
Simulation cycle by cycle. In each cycle the inputs take their values, then each latch output takes
the value its latch has (at the first cycle `0`), which comes from the cycle before unless the latch
is an input, then the updates are evaluated in order, and last the outputs are recorded. Signals
keep their values from one cycle to the next until they get new ones.
-/

namespace SyncCircuit

def Update.apply (env : Environment) (u : Update) : Except Fault Environment :=
  (u.value.eval env).map (env.bind u.target)

def Trace.record (env : Environment) (cycle : Nat) (t : Trace) : Except Fault Trace :=
  match env.get t.signal with
  | .error f => .error f
  | .ok value =>
    match t.set? cycle value with
    | some t => .ok t
    | none => .error (.outsideTrace t.signal cycle)

inductive Phase where
  | uninitialized
  /-- The cycle has been evaluated and recorded. -/
  | cycle (t : Nat)
  | done
deriving DecidableEq

structure Simulation where
  circuit : Circuit
  environment : Environment
  phase : Phase
  outputs : List Trace

namespace Simulation

def start (c : Circuit) : Simulation := ⟨c, .empty c.definitions, .uninitialized, c.unsetOutputs⟩

def within (s : Simulation) (o : Outcome Environment) : Outcome Simulation :=
  o.map fun env => { s with environment := env }

def driveInput (c : Circuit) (cycle : Nat) (env : Environment) (x : Name) :
    Except Fault Environment :=
  match (c.stimulus? x).bind (·.get? cycle) with
  | some value => .ok (env.bind x value)
  | none => .error (.missingInput x cycle)

def drive (cycle : Nat) (s : Simulation) : Outcome Simulation :=
  s.within (.each (driveInput s.circuit cycle) s.circuit.inputs s.environment)

def passLatch (env : Environment) (latch : Name) : Except Fault Environment :=
  (env.get latch).map (env.bind (latchOutput latch))

def pass (s : Simulation) : Outcome Simulation :=
  s.within (.each passLatch s.circuit.latches s.environment)

def clear (s : Simulation) : Simulation :=
  { s with environment :=
      s.environment.bindAll (s.circuit.latches.map fun latch => (latchOutput latch, false)) }

def update (s : Simulation) : Outcome Simulation :=
  s.within (.each Update.apply s.circuit.updates s.environment)

def record (cycle : Nat) (s : Simulation) : Outcome Simulation :=
  (Outcome.mapEach (Trace.record s.environment cycle) s.outputs).map fun ts =>
    { s with outputs := ts }

/-- The part of a cycle that follows the latches. -/
def settle (cycle : Nat) (s : Simulation) : Outcome Simulation :=
  (s.update.andThen (record cycle)).mapFault (.during cycle) |>.andThen fun s =>
    .done { s with phase := .cycle cycle }

def cleared (s : Simulation) : Simulation := { start s.circuit with phase := s.phase }

def reset (s : Simulation) : Outcome Simulation :=
  (s.cleared.drive 0).andThen fun s =>
    if s.circuit.length = 0 then .done { s with phase := .done } else s.clear.settle 0

def advance (cycle : Nat) (s : Simulation) : Outcome Simulation :=
  (s.drive cycle).andThen fun s => (s.pass.mapFault (.during cycle)).andThen (settle cycle)

/-- Evaluates the next cycle. After the last one the simulation is done, and stays so. -/
def clock (s : Simulation) : Outcome Simulation :=
  match s.phase with
  | .uninitialized => s.reset
  | .cycle t =>
    if s.circuit.length ≤ t + 1 then .done { s with phase := .done } else s.advance (t + 1)
  | .done => .done s

/-- Up to `count` clocks, none after the simulation is done. -/
def clocks : Nat → Simulation → Outcome Simulation
  | 0, s => .done s
  | count + 1, s => if s.phase = .done then .done s else s.clock.andThen (clocks count)

def remaining (s : Simulation) : Nat :=
  match s.phase with
  | .uninitialized => s.circuit.length + 1
  | .cycle t => s.circuit.length - (t + 1) + 1
  | .done => 0

def run (s : Simulation) : Outcome Simulation := clocks s.remaining s

def peek (s : Simulation) (x : Name) : Except Fault Bool := s.environment.get x

end Simulation

/-- Simulates all cycles and keeps the recorded outputs, unless the simulation fails. -/
def Circuit.simulate (c : Circuit) : Outcome Circuit :=
  let o := (Simulation.start c).run
  match o.fault with
  | none => .done { c with recorded := o.state.outputs }
  | some f => ⟨c, some f⟩

end SyncCircuit
