import SyncCircuit.Expr.Basic
import SyncCircuit.Reader

/-!
Reading an expression token by token. Negation binds tighter than `*`, and `*` tighter than `+`;
both associate to the left. A name followed by a parenthesis is a call, whose arguments may end
in a comma.
-/

namespace SyncCircuit

namespace Expr

/-- What stands before an operand within its parentheses: the sum up to the last `+`, the product
up to the last `*`, and the number of negations. -/
structure Pending where
  sum : Option Expr
  product : Option Expr
  negations : Nat
deriving DecidableEq

namespace Pending

def nothing : Pending := ⟨none, none, 0⟩

def negate : Nat → Expr → Expr
  | 0, e => e
  | n + 1, e => .not (negate n e)

def productWith (p : Pending) (operand : Expr) : Expr :=
  match p.product with
  | none => negate p.negations operand
  | some left => .and left (negate p.negations operand)

def sumWith (p : Pending) (operand : Expr) : Expr :=
  match p.sum with
  | none => p.productWith operand
  | some left => .or left (p.productWith operand)

end Pending

inductive Opened where
  | group (before : Pending)
  | call (before : Pending) (function : Name) (arguments : List Expr)
deriving DecidableEq

inductive Cursor where
  | operand
  | argument
  /-- A name: of a function, if a parenthesis follows, otherwise of a signal. -/
  | name (x : Name)
  | factor (e : Expr)
  /-- A sum is complete, and no product can be formed with its end any more. -/
  | sum (e : Expr)
deriving DecidableEq

/-- A state of reading an expression; `opened` has the innermost parenthesis first. -/
structure Reading where
  opened : List Opened
  pending : Pending
  cursor : Cursor
deriving DecidableEq

namespace Reading

def start : Reading := ⟨[], .nothing, .operand⟩

def factor? (s : Reading) : Option Expr :=
  match s.cursor with
  | .name x => some (.signal x)
  | .factor e => some e
  | _ => none

def sum? (s : Reading) : Option Expr :=
  match s.cursor with
  | .name x => some (s.pending.sumWith (.signal x))
  | .factor e => some (s.pending.sumWith e)
  | .sum e => some e
  | _ => none

def beginsOperand (s : Reading) : Bool :=
  match s.cursor with
  | .operand | .argument => true
  | _ => false

def close? (s : Reading) : Option Reading :=
  match s.opened, s.cursor with
  | [], _ => none
  | .call before f as :: outer, .argument => some ⟨outer, before, .factor (.call f as)⟩
  | .call before f as :: outer, _ =>
    s.sum?.map fun e => ⟨outer, before, .factor (.call f (as ++ [e]))⟩
  | .group before :: outer, _ => s.sum?.map fun e => ⟨outer, before, .factor e⟩

def step? (s : Reading) : Token → Option Reading
  | .name x => if s.beginsOperand then some { s with cursor := .name x } else none
  | .mark .negate =>
    if s.beginsOperand then
      some ⟨s.opened, { s.pending with negations := s.pending.negations + 1 }, .operand⟩
    else none
  | .mark .openParen =>
    match s.cursor with
    | .operand | .argument => some ⟨.group s.pending :: s.opened, .nothing, .operand⟩
    | .name f => some ⟨.call s.pending f [] :: s.opened, .nothing, .argument⟩
    | _ => none
  | .mark .times =>
    s.factor?.map fun e => ⟨s.opened, ⟨s.pending.sum, some (s.pending.productWith e), 0⟩, .operand⟩
  | .mark .plus => s.sum?.map fun e => ⟨s.opened, ⟨some e, none, 0⟩, .operand⟩
  | .mark .comma =>
    match s.opened with
    | .call before f as :: outer =>
      s.sum?.map fun e => ⟨.call before f (as ++ [e]) :: outer, .nothing, .argument⟩
    | _ => none
  | .mark .closeParen => s.close?
  | _ => none

def result (s : Reading) : Option Expr :=
  match s.opened with
  | [] => s.sum?
  | _ :: _ => none

/-- Nothing but the end of the sum follows. -/
def settled (s : Reading) : Reading :=
  match s.sum? with
  | some e => { s with cursor := .sum e }
  | none => s

end Reading

/-- What can follow a sum that stands by itself: the end, another summand, or in a call or a group
also a comma or a closing parenthesis. -/
def reader : Reader Reading Expr where
  start := .start
  step := Reading.step?
  settle s next :=
    if next ∈ [none, some (.mark .plus), some (.mark .comma), some (.mark .closeParen)] then
      s.settled
    else s
  result := Reading.result

def parse (text : String) : Except Fault Expr :=
  (reader.run text).mapError (Refusal.fault (.ofString text))

end Expr

end SyncCircuit
