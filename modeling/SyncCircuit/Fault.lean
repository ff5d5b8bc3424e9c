import SyncCircuit.Signal
import SyncCircuit.Source
import SyncCircuit.Text.Quoted

/-!
What can go wrong between the text of a circuit and the end of its simulation, and the message
for each. A fault may carry the cycle in which it happened.
-/

namespace SyncCircuit

inductive Fault where
  | parse (span : Span) (message : String)
  | unboundSignal (signal : Name)
  | undefinedFunction (function : Name)
  | arityMismatch (function : Name) (expected found : Nat)
  /-- The input has no trace, or its trace has no value at the cycle. -/
  | missingInput (input : Name) (cycle : Nat)
  | unequalLengths (signal : Name) (expected found : Nat)
  | invalidBit (signal : Name) (found : Char)
  | outsideTrace (signal : Name) (cycle : Nat)
  /-- A function has been entered for some arguments while it was being evaluated for the same. -/
  | endlessCall
  | atCycle (cycle : Nat) (cause : Fault)
deriving DecidableEq

namespace Fault

def root : Fault → Fault
  | atCycle _ cause => cause.root
  | f => f

/-- The first attribution to a cycle stays. -/
def during (cycle : Nat) : Fault → Fault
  | atCycle c cause => atCycle c cause
  | f => atCycle cycle f

def message : Fault → String
  | parse span message => span.text ++ ": " ++ message
  | unboundSignal x => "Signal not defined: " ++ x
  | undefinedFunction f => "Function not defined: " ++ f
  | arityMismatch f expected found =>
    "Function " ++ f ++ " expects " ++ toString expected ++ " arguments but was given " ++
      toString found
  | missingInput x cycle =>
    if cycle = 0 then
      "Simulation input not defined or has length 0 for input signal: " ++ x
    else
      "Simulation input not defined for input signal: " ++ x ++ " at cycle " ++ toString cycle
  | unequalLengths x expected found =>
    "Simulation input " ++ x ++ " has length " ++ toString found ++ " but expected " ++
      toString expected
  | invalidBit x found =>
    "Simulation input " ++ x ++ " contains " ++ Text.quoted found ++ ", expected 0 or 1"
  | outsideTrace x cycle => "Trace " ++ x ++ " has no cycle " ++ toString cycle
  | endlessCall => "Function calls without end"
  | atCycle cycle cause => "cycle " ++ toString cycle ++ ": " ++ cause.message

end Fault

end SyncCircuit
