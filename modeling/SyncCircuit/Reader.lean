import SyncCircuit.Fault
import SyncCircuit.Token.Scan

/-!
Readers of token sequences. A reader takes one token after the other and stops at the first that
cannot come where it stands. The refusal names that token, or the end of the text, and lists the
kinds of tokens that could have come instead.
-/

namespace SyncCircuit

inductive Refusal where
  | invalidToken (offset : Nat)
  | unexpectedToken (found : Placed) (expected : List Terminal)
  | unexpectedEnd (offset : Nat) (expected : List Terminal)
deriving DecidableEq

namespace Refusal

def first : Refusal → Nat
  | invalidToken offset => offset
  | unexpectedToken found _ => found.start
  | unexpectedEnd offset _ => offset

def last : Refusal → Nat
  | invalidToken offset => offset
  | unexpectedToken found _ => found.stop
  | unexpectedEnd offset _ => offset

def alternatives (expected : List Terminal) : String :=
  "Expected one of " ++ Text.joined " " (expected.map Terminal.description)

def message : Refusal → String
  | invalidToken _ => "Parse error: Invalid token"
  | unexpectedToken found expected =>
    "Parse error: Unexpected \"" ++ found.token.text ++ "\". " ++ alternatives expected
  | unexpectedEnd _ expected =>
    "Parse error: Unexpected end of input. " ++ alternatives expected

def fault (source : Source) (r : Refusal) : Fault :=
  .parse ⟨source, r.first, r.last⟩ r.message

end Refusal

/-- `step` takes a token, if it can come here. `settle` is what a state becomes when the token or
the end that is looked at next rules out some ways on, even if it is then refused itself. -/
structure Reader (σ α : Type) where
  start : σ
  step : σ → Token → Option σ
  settle : σ → Option Terminal → σ
  result : σ → Option α

namespace Reader

variable {σ α : Type} (r : Reader σ α)

/-- The kinds of tokens that can come next, seen from the state in which `next` was refused. -/
def expected (s : σ) (next : Option Terminal) : List Terminal :=
  Terminal.all.filter fun t => (r.step (r.settle s next) t.sample).isSome

/-- Reads on from a state reached by a token that ends at `last`. -/
def runFrom (s : σ) (last : Nat) (invalid : Option Nat) : List Placed → Except Refusal α
  | [] =>
    match invalid with
    | some offset => .error (.invalidToken offset)
    | none =>
      match r.result s with
      | some a => .ok a
      | none => .error (.unexpectedEnd last (r.expected s none))
  | p :: rest =>
    match r.step s p.token with
    | some s => runFrom s p.stop invalid rest
    | none => .error (.unexpectedToken p (r.expected s (some p.token.terminal)))

def run (text : String) : Except Refusal α :=
  let scan := Scan.ofText text
  r.runFrom r.start 0 scan.invalid scan.tokens

end Reader

end SyncCircuit
