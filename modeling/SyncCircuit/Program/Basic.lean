import SyncCircuit.Definition
import SyncCircuit.Trace

/-!
A circuit description as it is written: names, definitions, one equation for each computed signal,
and the bits that drive the inputs.
-/

namespace SyncCircuit

structure Update where
  target : Name
  value : Expr
deriving DecidableEq

def Update.text (u : Update) : String := u.target ++ " = " ++ u.value.text

structure Program where
  name : Name
  inputs : List Name
  outputs : List Name
  latches : List Name
  definitions : List Definition
  updates : List Update
  stimuli : List Trace
deriving DecidableEq

namespace Program

def blank : Program := ⟨"", [], [], [], [], [], []⟩

end Program

end SyncCircuit
