import SyncCircuit.Simulation

/-!
What there is to tell about the making and the simulation of a circuit, as events in order. The
events of a step are read off the state before it; a step that fails has those up to the fault.
-/

namespace SyncCircuit

inductive Level where
  | warn | info | debug | trace
deriving DecidableEq

namespace Level

def text : Level → String
  | warn => "WARN"
  | info => "INFO"
  | debug => "DEBUG"
  | trace => "TRACE"

def detail : Level → Nat
  | warn => 0
  | info => 1
  | debug => 2
  | trace => 3

end Level

inductive Event where
  | parsed (circuit : Name)
  | written (path : String)
  | built (c : Circuit)
  | redefined (function : Name)
  | noCycles (circuit : Name)
  | updated (u : Update) (value : Bool)
  | evaluated (cycle : Nat) (environment : Environment)
  | simulated (c : Circuit)

namespace Event

def level : Event → Level
  | parsed _ | written _ | built _ | noCycles _ | simulated _ => .info
  | redefined _ => .warn
  | evaluated _ _ => .debug
  | updated _ _ => .trace

def origin : Event → String
  | parsed _ => "hdl0::parse"
  | written _ => "hdl0"
  | built _ => "hdl0::circuit"
  | redefined _ => "hdl0::env"
  | noCycles _ | evaluated _ _ | simulated _ => "hdl0::sim"
  | updated _ _ => "hdl0::ast"

def message : Event → String
  | parsed name => "Parsed circuit " ++ name
  | written path => "Wrote " ++ path
  | built c =>
    "Circuit " ++ c.name ++ ": " ++ toString c.inputs.length ++ " inputs, " ++
      toString c.outputs.length ++ " outputs, " ++ toString c.latches.length ++ " latches, " ++
      toString c.definitions.list.length ++ " definitions, " ++
      toString c.updates.length ++ " updates, " ++ toString c.length ++ " cycles"
  | redefined f => "Redefinition of " ++ f
  | noCycles name => "Circuit " ++ name ++ " has no simulation cycles"
  | updated u value => "    " ++ u.text ++ " => " ++ String.singleton (digit value)
  | evaluated cycle env => "cycle " ++ toString cycle ++ ": " ++ env.text
  | simulated c => "Simulated " ++ toString c.length ++ " cycles of " ++ c.name

def line (e : Event) : String :=
  "[" ++ e.level.text ++ " " ++ e.origin ++ "] " ++ e.message

end Event

/-- The names that are defined again, once for each definition after the first. -/
def redefinitions (seen : List Name) : List Definition → List Name
  | [] => []
  | d :: ds =>
    if d.name ∈ seen then d.name :: redefinitions seen ds else redefinitions (d.name :: seen) ds

def Circuit.events (c : Circuit) : List Event :=
  .built c :: (redefinitions [] c.definitions.list).map .redefined

namespace Simulation

def updateEvents (env : Environment) : List Update → List Event
  | [] => []
  | u :: us =>
    match u.value.eval env with
    | .ok value => .updated u value :: updateEvents (env.bind u.target value) us
    | .error _ => []

def settleEvents (cycle : Nat) (s : Simulation) : List Event :=
  let o := s.settle cycle
  updateEvents s.environment s.circuit.updates ++
    match o.fault with
    | none => [.evaluated cycle o.state.environment]
    | some _ => []

def resetEvents (s : Simulation) : List Event :=
  let o := s.cleared.drive 0
  match o.fault with
  | none =>
    if s.circuit.length = 0 then [.noCycles s.circuit.name] else o.state.clear.settleEvents 0
  | some _ => []

def advanceEvents (cycle : Nat) (s : Simulation) : List Event :=
  let o := (s.drive cycle).andThen pass
  match o.fault with
  | none => o.state.settleEvents cycle
  | some _ => []

def clockEvents (s : Simulation) : List Event :=
  match s.phase with
  | .uninitialized => s.resetEvents
  | .cycle t => if s.circuit.length ≤ t + 1 then [] else s.advanceEvents (t + 1)
  | .done => []

def clocksEvents : Nat → Simulation → List Event
  | 0, s => [.simulated s.circuit]
  | count + 1, s =>
    if s.phase = .done then [.simulated s.circuit]
    else
      s.clockEvents ++
        match s.clock.fault with
        | none => clocksEvents count s.clock.state
        | some _ => []

def runEvents (s : Simulation) : List Event := clocksEvents s.remaining s

end Simulation

end SyncCircuit
