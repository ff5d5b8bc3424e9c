import SyncCircuit.Expr.Basic

/-!
Functions that a circuit description defines, and the table of them. The table keeps all
definitions in order; of two with the same name, calls find the later one.
-/

namespace SyncCircuit

structure Definition where
  name : Name
  parameters : List Name
  body : Expr
deriving DecidableEq

namespace Definition

def arity (d : Definition) : Nat := d.parameters.length

def text (d : Definition) : String :=
  ".def " ++ d.name ++ "(" ++ Text.joined ", " d.parameters ++ ") = " ++ d.body.text

end Definition

/-- `position` has the place in `list` of the definition that a name stands for. -/
structure Definitions where
  list : List Definition
  position : Std.ExtTreeMap Name Nat

namespace Definitions

def empty : Definitions := ⟨[], ∅⟩

def add (ds : Definitions) (d : Definition) : Definitions :=
  ⟨ds.list ++ [d], ds.position.insert d.name ds.list.length⟩

def ofList (list : List Definition) : Definitions := list.foldl add empty

def find? (ds : Definitions) (name : Name) : Option Definition :=
  ds.position[name]?.bind (ds.list[·]?)

/-- The nesting that a call can reach without entering a function twice with the same arguments:
each function that can be called counts as often as there are arguments for it. -/
def depth (ds : Definitions) : Nat :=
  ds.position.toList.foldr
    (fun (name, _) n => Nat.pow 2 (((ds.find? name).map Definition.arity).getD 0) + n) 0

end Definitions

end SyncCircuit
