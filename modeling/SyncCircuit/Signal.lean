import Std.Data.ExtTreeMap

/-!
Signals are known by name and carry one bit. A `Valuation` gives some of them a value and lists
them in the order of their names.
-/

namespace SyncCircuit

/-- The name of a signal, a function or a circuit. -/
abbrev Name := String

def latchOutput (latch : Name) : Name := latch ++ "'"

def digit (value : Bool) : Char := if value then '1' else '0'

abbrev Valuation := Std.ExtTreeMap Name Bool

end SyncCircuit
