import SyncCircuit.Expr.Reader
import SyncCircuit.Program.Basic

/-!
Reading a circuit description token by token. The sections come in a fixed order, the one for
latches may be missing, and equations follow each other without any mark between them: a name
after a complete expression begins the next one.
-/

namespace SyncCircuit

namespace Program

inductive Place where
  | hardware
  | title
  | inputsWord
  | inputs
  | outputs
  | latches
  | defined
  | opening (f : Name)
  /-- Before a parameter or the end of the parameters. -/
  | parameters (f : Name) (xs : List Name)
  | parameter (f : Name) (xs : List Name)
  | definedAs (f : Name) (xs : List Name)
  | body (f : Name) (xs : List Name) (s : Expr.Reading)
  | updates
  | updatedTo (x : Name)
  | value (x : Name) (s : Expr.Reading)
  | stimuli
  | driven (x : Name)
  | stimulus (x : Name)
deriving DecidableEq

/-- A state of reading a description: what has been read in full, and the place after it. -/
structure Reading where
  read : Program
  place : Place
deriving DecidableEq

namespace Reading

def start : Reading := ⟨blank, .hardware⟩

/-- The first tokens after the outputs and the latches. -/
def section? (p : Program) : Mark → Option Reading
  | .define => some ⟨p, .defined⟩
  | .update => some ⟨p, .updates⟩
  | _ => none

def afterBody? (p : Program) (d : Definition) : Token → Option Reading
  | .mark m => section? { p with definitions := p.definitions ++ [d] } m
  | _ => none

def afterValue? (p : Program) (u : Update) : Token → Option Reading
  | .name x => some ⟨{ p with updates := p.updates ++ [u] }, .updatedTo x⟩
  | .mark .simulate => some ⟨{ p with updates := p.updates ++ [u] }, .stimuli⟩
  | _ => none

def step? : Reading → Token → Option Reading
  | ⟨p, .hardware⟩, .mark .hardware => some ⟨p, .title⟩
  | ⟨p, .title⟩, .name x => some ⟨{ p with name := x }, .inputsWord⟩
  | ⟨p, .inputsWord⟩, .mark .inputs => some ⟨p, .inputs⟩
  | ⟨p, .inputs⟩, .name x => some ⟨{ p with inputs := p.inputs ++ [x] }, .inputs⟩
  | ⟨p, .inputs⟩, .mark .outputs => some ⟨p, .outputs⟩
  | ⟨p, .outputs⟩, .name x => some ⟨{ p with outputs := p.outputs ++ [x] }, .outputs⟩
  | ⟨p, .outputs⟩, .mark .latches => some ⟨p, .latches⟩
  | ⟨p, .outputs⟩, .mark m => section? p m
  | ⟨p, .latches⟩, .name x => some ⟨{ p with latches := p.latches ++ [x] }, .latches⟩
  | ⟨p, .latches⟩, .mark m => section? p m
  | ⟨p, .defined⟩, .name f => some ⟨p, .opening f⟩
  | ⟨p, .opening f⟩, .mark .openParen => some ⟨p, .parameters f []⟩
  | ⟨p, .parameters f xs⟩, .name x => some ⟨p, .parameter f (xs ++ [x])⟩
  | ⟨p, .parameters f xs⟩, .mark .closeParen => some ⟨p, .definedAs f xs⟩
  | ⟨p, .parameter f xs⟩, .mark .comma => some ⟨p, .parameters f xs⟩
  | ⟨p, .parameter f xs⟩, .mark .closeParen => some ⟨p, .definedAs f xs⟩
  | ⟨p, .definedAs f xs⟩, .mark .equals => some ⟨p, .body f xs .start⟩
  | ⟨p, .body f xs s⟩, t =>
    match s.step? t with
    | some s => some ⟨p, .body f xs s⟩
    | none => s.result.bind fun e => afterBody? p ⟨f, xs, e⟩ t
  | ⟨p, .updates⟩, .name x => some ⟨p, .updatedTo x⟩
  | ⟨p, .updates⟩, .mark .simulate => some ⟨p, .stimuli⟩
  | ⟨p, .updatedTo x⟩, .mark .equals => some ⟨p, .value x .start⟩
  | ⟨p, .value x s⟩, t =>
    match s.step? t with
    | some s => some ⟨p, .value x s⟩
    | none => s.result.bind fun e => afterValue? p ⟨x, e⟩ t
  | ⟨p, .stimuli⟩, .name x => some ⟨p, .driven x⟩
  | ⟨p, .driven x⟩, .mark .equals => some ⟨p, .stimulus x⟩
  | ⟨p, .stimulus x⟩, .bits values =>
    some ⟨{ p with stimuli := p.stimuli ++ [.ofValues x values] }, .stimuli⟩
  | _, _ => none

def result : Reading → Option Program
  | ⟨p, .stimuli⟩ => some p
  | _ => none

def settled : Reading → Reading
  | ⟨p, .body f xs s⟩ => ⟨p, .body f xs s.settled⟩
  | ⟨p, .value x s⟩ => ⟨p, .value x s.settled⟩
  | s => s

end Reading

/-- What can follow a sum somewhere in a description. -/
def followsSum : Terminal → Bool
  | .name => true
  | .bits => false
  | .mark m => m ∈ [.plus, .comma, .closeParen, .define, .update, .simulate]

def reader : Reader Reading Program where
  start := .start
  step := Reading.step?
  settle s next := if next.any followsSum then s.settled else s
  result := Reading.result

def parseFrom (source : Source) (text : String) : Except Fault Program :=
  (reader.run text).mapError (Refusal.fault source)

def parse (text : String) : Except Fault Program := parseFrom (.ofString text) text

end Program

end SyncCircuit
