import SyncCircuit.Environment

/-!
The value of an expression. Sums and products stop at the operand that decides them. A call
evaluates its arguments where it stands and the body of the definition where only the parameters
are bound. Evaluation that would never end is cut off at a nesting of calls which no evaluation
that ends can reach, so that every expression has a value or a fault.
-/

namespace SyncCircuit

namespace Expr

mutual

/-- The value of an expression, where `enter` gives the value of a definition for its arguments. -/
def evalWith (enter : Definition → List Bool → Except Fault Bool) (env : Environment) :
    Expr → Except Fault Bool
  | signal x => env.get x
  | and a b =>
    match evalWith enter env a with
    | .ok true => evalWith enter env b
    | other => other
  | or a b =>
    match evalWith enter env a with
    | .ok false => evalWith enter env b
    | other => other
  | not a => (evalWith enter env a).map (!·)
  | call f as =>
    match env.definition f with
    | .error e => .error e
    | .ok d =>
      if d.arity = as.length then
        match evalAllWith enter env as with
        | .ok values => enter d values
        | .error e => .error e
      else .error (.arityMismatch f d.arity as.length)

def evalAllWith (enter : Definition → List Bool → Except Fault Bool) (env : Environment) :
    List Expr → Except Fault (List Bool)
  | [] => .ok []
  | a :: as =>
    match evalWith enter env a with
    | .error e => .error e
    | .ok value =>
      match evalAllWith enter env as with
      | .error e => .error e
      | .ok values => .ok (value :: values)

end

end Expr

/-- The value of a definition's body for the given arguments, with calls nested at most `depth`
deep in it. -/
def Definitions.enter (ds : Definitions) : Nat → Definition → List Bool → Except Fault Bool
  | 0, _, _ => .error .endlessCall
  | depth + 1, d, values =>
    d.body.evalWith (ds.enter depth) (d.scope (.empty ds) values)

def Expr.evalWithin (depth : Nat) (env : Environment) (e : Expr) : Except Fault Bool :=
  e.evalWith (env.definitions.enter depth) env

def Expr.eval (env : Environment) (e : Expr) : Except Fault Bool :=
  e.evalWithin env.definitions.depth env

end SyncCircuit
