import SyncCircuit.Definition
import SyncCircuit.Fault

/-!
What an expression is evaluated in: the definitions that calls refer to and the values of signals.
-/

namespace SyncCircuit

structure Environment where
  definitions : Definitions
  values : Valuation

namespace Environment

def empty (definitions : Definitions) : Environment := ⟨definitions, ∅⟩

def child (env : Environment) : Environment := empty env.definitions

def get (env : Environment) (x : Name) : Except Fault Bool :=
  match env.values[x]? with
  | some value => .ok value
  | none => .error (.unboundSignal x)

def bind (env : Environment) (x : Name) (value : Bool) : Environment :=
  { env with values := env.values.insert x value }

def binds (env : Environment) (x : Name) : Bool := env.values.contains x

/-- Bound from left to right, so that of two equal names the later one counts. -/
def bindAll (env : Environment) (bindings : List (Name × Bool)) : Environment :=
  bindings.foldl (fun env (x, value) => env.bind x value) env

def definition (env : Environment) (f : Name) : Except Fault Definition :=
  match env.definitions.find? f with
  | some d => .ok d
  | none => .error (.undefinedFunction f)

def text (env : Environment) : String :=
  "[" ++ Text.joined ", " (env.values.toList.map fun (x, value) =>
    x ++ " : " ++ String.singleton (digit value)) ++ "]"

end Environment

/-- What the body of a definition is evaluated in when it is called in `env`: nothing is bound but
the parameters. -/
def Definition.scope (d : Definition) (env : Environment) (values : List Bool) : Environment :=
  env.child.bindAll (d.parameters.zip values)

end SyncCircuit
